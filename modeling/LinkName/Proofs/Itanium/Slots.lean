import LinkName.Proofs.Itanium.Orderly

/-!
What a slot stands for is written once. A type that a call has written has a slot from then on, its
own or, where it is a record or an enumeration without `const`, that of the symbol which it names;
every later call for the same type refers back to that slot and leaves the table as it is.
-/
namespace LinkName.Itanium

variable {graph : Graph}

/-- Whether a type is never referred back to: a builtin type without qualifiers, unless it is one of
the vendor extensions. -/
def isPlain (node : TypeNode) : Bool :=
  match node.form with
  | .basic basic => !isExtended basic && node.quals = {}
  | _ => false

/-! ## What a call leaves in the table -/

section

variable {session later : Session graph (Table Component)} {component : Component}
variable {write : Encoder graph (List Token)} {tokens : List Token}

theorem mem_push_of_unlimited {table : Table Component} {last : Table Component}
    (unlimited : last.limit = none) (pushed : (table.push component).2 = last) :
    component ∈ last.entries := by
  have same : table.limit = none := by rw [← unlimited, ← pushed, Table.limit_push]
  rw [← pushed, Table.entries_push, Table.isFull, same]
  exact List.mem_append_right _ List.mem_cons_self

/-- Either there was a slot, or something has been written. -/
theorem run_orBackRef (ran : (orBackRef component write).run session = .ok tokens later) :
    component ∈ later.tables.entries ∨ write.run session = .ok tokens later := by
  rw [run_orBackRef_eq] at ran
  cases found : session.tables.find? component with
  | some slot =>
      rw [found] at ran
      cases ran
      exact .inl (List.mem_of_getElem? (Table.getElem?_of_find? found))
  | none =>
      rw [found] at ran
      exact .inr ran

theorem run_orBackRef_known (known : component ∈ session.tables.entries) :
    ∃ slot, (orBackRef component write).run session = .ok [.backRef slot] session := by
  cases found : session.tables.find? component with
  | none => exact absurd known (Table.find?_eq_none_iff.mp found)
  | some slot =>
      refine ⟨slot, ?_⟩
      rw [run_orBackRef_eq, found]
      rfl

theorem run_orBackRef_unknown (unknown : component ∉ session.tables.entries) :
    (orBackRef component write).run session = write.run session := by
  rw [run_orBackRef_eq, Table.find?_eq_none_iff.mpr unknown]
  rfl

theorem mem_of_stored (unlimited : later.tables.limit = none) (change : List Token → List Token)
    (ran : EStateM.run (do
      let written ← write
      store component
      return change written) session = .ok tokens later) :
    component ∈ later.tables.entries := by
  obtain ⟨written, ended, -, stored⟩ := Encoder.run_bind_eq_ok ran
  cases stored
  exact mem_push_of_unlimited unlimited rfl

theorem mem_of_compound (unlimited : later.tables.limit = none)
    (ran : (orBackRef component (thenStore component write)).run session = .ok tokens later) :
    component ∈ later.tables.entries :=
  (run_orBackRef ran).elim (fun known => known) fun written =>
    mem_of_stored unlimited (fun tokens => tokens) written

end

/-! ## Calls for one type -/

section

variable {machine : Target} {parts parts' : Encoding graph} {id : TypeId} {node : TypeNode}
variable {place place' : Place} {session later last : Session graph (Table Component)}
variable {tokens : List Token}

/-- A builtin type takes a slot wherever it is qualified or a vendor extension. -/
theorem basicType_again {basic : BasicType} (worthy : (isExtended basic || node.isConst) = true)
    (unlimited : later.tables.limit = none)
    (ran : (basicType machine id node basic).run session = .ok tokens later)
    (grown : later.tables.entries ⊆ last.tables.entries) :
    ∃ slot, (basicType machine id node basic).run last = .ok [.backRef slot] last := by
  simp only [basicType, worthy, if_true] at ran ⊢
  refine run_orBackRef_known (grown ?_)
  rcases run_orBackRef ran with known | written
  · exact known
  · cases written
    exact mem_push_of_unlimited unlimited rfl

/-- A record or an enumeration leaves its own slot or that of its symbol behind. -/
theorem namedType_again {symbol : SymbolId} (unlimited : later.tables.limit = none)
    (ran : (namedType parts id node symbol).run session = .ok tokens later)
    (grown : later.tables.entries ⊆ last.tables.entries) :
    ∃ slot, (namedType parts' id node symbol).run last = .ok [.backRef slot] last := by
  by_cases known : .type id ∈ last.tables.entries
  · exact run_orBackRef_known known
  have written := (run_orBackRef ran).resolve_left fun listed => known (grown listed)
  cases const : node.isConst with
  | true =>
      simp only [const, storeIf, if_true] at written
      exact absurd (grown (mem_of_stored unlimited (constMark node ++ ·) written)) known
  | false =>
      simp only [const, storeIf, Bool.false_eq_true, if_false] at written
      obtain ⟨name, ended, begun, finished⟩ := Encoder.run_bind_eq_ok written
      cases finished
      have named := grown (mem_of_compound unlimited begun)
      obtain ⟨slot, again⟩ : ∃ slot, mention parts' symbol last = .ok [.backRef slot] last :=
        run_orBackRef_known named
      refine ⟨slot, ?_⟩
      rw [namedType, run_orBackRef_unknown known]
      simp only [EStateM.run, bind, EStateM.bind, again, const, storeIf, constMark,
        Bool.false_eq_true, if_false]
      rfl

theorem type_again (worthy : isPlain node = false) (found : session.overlay.type id = .ok node)
    (unlimited : later.tables.limit = none)
    (ran : (type machine parts id place).run session = .ok tokens later)
    (found' : last.overlay.type id = .ok node)
    (grown : later.tables.entries ⊆ last.tables.entries) :
    ∃ slot, (type machine parts' id place').run last = .ok [.backRef slot] last := by
  rw [type, Encoder.run_type_bind found] at ran
  rw [type, Encoder.run_type_bind found']
  cases foreign : node.isForeign with
  | true =>
      obtain ⟨⟨⟩, _, native, -⟩ := Encoder.run_bind_eq_ok ran
      rw [foreign] at native
      exact absurd native (Encoder.run_refuseType_ne .foreignQualifiers ())
  | false =>
      simp only [foreign, Encoder.demand, Bool.not_false, if_true, pure_bind] at ran ⊢
      rcases node with ⟨form, quals⟩
      cases form with
      | basic basic =>
          refine basicType_again ?_ unlimited ran grown
          rcases quals with ⟨isConst, isShared, isImmutable⟩
          simp_all [isPlain, TypeNode.isForeign, TypeNode.isConst, or_iff_not_imp_left]
      | record symbol | enumeration symbol _ => exact namedType_again unlimited ran grown
      | dynamicArray _ | assocArray _ _ | delegate _ | typedef _ =>
          exact absurd ran (Encoder.run_refuseType_ne .noCounterpart tokens)
      | _ => exact run_orBackRef_known (grown (mem_of_compound unlimited ran))

end

/-! ## Whole names -/

theorem orderly_start (formed : graph.WellFormed) :
    Orderly ({ tables := Table.unbounded } : Session graph (Table Component)) :=
  ⟨Overlay.sound_empty formed, rfl, ⟨Table.unbounded, rfl, .nil⟩, .nil⟩

/-- A name is begun in an orderly session, and whatever is called from an orderly session, at any
depth and whether or not it is refused, stops in an orderly one that has every slot of the first; so
nothing but the slots that are merely counted is ever in the table twice. And a type that has been
written once is referred back to in every session that extends the one in which it was complete. -/
theorem slots_unique (built : graph.Built) (machine : Target) :
    (Orderly ({ tables := Table.unbounded } : Session graph (Table Component)) ∧
      ∀ depth, (∀ id, Keeps {} ((encoding machine depth : Encoding graph).scope id)) ∧
        (∀ owner arg, Keeps {} ((encoding machine depth : Encoding graph).argument owner arg)) ∧
        ∀ id place, Keeps {} ((encoding machine depth : Encoding graph).type id place)) ∧
    (∀ id, ((stop ((encode machine id : Encoder graph (List Token)).run
      { tables := Table.unbounded })).tables.entries.filter (· ≠ .unnamed)).Nodup) ∧
    ∀ depth id place session tokens later node, Orderly session →
      ((encoding machine depth : Encoding graph).type id place).run session = .ok tokens later →
      session.overlay.type id = .ok node → isPlain node = false →
      ∀ more place' last, Extends later last → ∃ slot,
        ((encoding machine (more + 1) : Encoding graph).type id place').run last =
          .ok [.backRef slot] last := by
  have formed := built.wellFormed
  have start := orderly_start formed
  have keeps := keepsPlan_within formed formed.order machine
  refine ⟨⟨start, fun depth => ⟨(keeps depth).scope {}, (keeps depth).argument {},
    (keeps depth).type {}⟩⟩, fun id => (keeps_encode formed machine id {} _ le_rfl start).1.once, ?_⟩
  intro depth id place session tokens later node orderly ran found worthy more place' last grown
  obtain ⟨kept, further⟩ := (keeps depth).type {} id place session session.overlay.empty_le orderly
  rw [ran] at kept further
  cases depth with
  | zero => cases ran
  | succ depth =>
      exact type_again worthy found kept.unlimited ran
        (Overlay.type_mono (further.overlay.trans grown.overlay) found) grown.entries.subset

/-- `void link(const Node *, const Node *)`. -/
def links : Graph where
  symbols :=
    [{ ident := "app", sort := .moduleScope },
      { ident := "Node", parent := some ⟨0⟩, sort := .record .struct },
      { ident := "link", parent := some ⟨0⟩, sort := .function { type := ⟨4⟩ } }]
  types :=
    [{ form := .basic .void }, { form := .record ⟨1⟩ },
      { form := .record ⟨1⟩, quals := { isConst := true } }, { form := .pointer ⟨2⟩ },
      { form := .function { result := ⟨0⟩, params := [{ type := ⟨3⟩ }, { type := ⟨3⟩ }] } }]

theorem links_built : links.Built :=
  Graph.built_of_takeAll?
    [.symbol { ident := "app", sort := .moduleScope },
      .symbol { ident := "Node", parent := some ⟨0⟩, sort := .record .struct },
      .type { form := .basic .void }, .type { form := .record ⟨1⟩ },
      .type { form := .record ⟨1⟩, quals := { isConst := true } }, .type { form := .pointer ⟨2⟩ },
      .type
        { form := .function { result := ⟨0⟩, params := [{ type := ⟨3⟩ }, { type := ⟨3⟩ }] } },
      .symbol { ident := "link", parent := some ⟨0⟩, sort := .function { type := ⟨4⟩ } }] rfl

/-- The pointer is written as a parameter, and referred back to where it is nested. -/
theorem slots_unique_links :
    ∃ tokens later slot,
      ((encoding Target.itanium64 8 : Encoding links).type ⟨3⟩ .outermost).run
          { tables := Table.unbounded } = .ok tokens later ∧
        Token.write tokens = "PK4Node".toList ∧
        ((encoding Target.itanium64 8 : Encoding links).type ⟨3⟩ .nested).run later =
          .ok [.backRef slot] later := by
  obtain ⟨⟨start, -⟩, -, again⟩ := slots_unique links_built Target.itanium64
  obtain ⟨slot, referred⟩ :=
    again 8 ⟨3⟩ .outermost _ _ _ _ start rfl rfl rfl 7 .nested _ (.refl _)
  exact ⟨_, _, slot, rfl, by decide +kernel, referred⟩

end LinkName.Itanium
