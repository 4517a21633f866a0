import LinkName.Naming
import LinkName.Proofs.Itanium.Completion
import LinkName.Proofs.Itanium.Limits
import LinkName.Proofs.Itanium.Slots
import LinkName.Proofs.Microsoft.Completion
import LinkName.Proofs.Microsoft.Limits
import LinkName.Proofs.Numeral

/-!
Names are made within bounds. Every symbol of a graph that can be built is given a name or a
diagnosis, by nesting no deeper than the depth bound and without following a handle that leads
nowhere. What is kept in the meantime is in proportion to the graph or has a limit of its own, and
what is written finds room in the digits that are set aside for it. Handles and sequence numbers of
32 bits are enough for all graphs but those of several hundred million symbols and types.
-/
namespace LinkName

namespace Discipline

variable {graph : Graph} {τ α β : Type} {discipline : Discipline τ β} {first : Session graph τ}
variable {promise : Session graph τ → α → Prop}
variable {reached : EStateM.Result Refusal (Session graph τ) α}

theorem Ended.valid_stop (ended : discipline.Ended first promise reached) :
    discipline.Valid (stop reached) := by
  cases ended with
  | ok _ valid _ => exact valid
  | error valid _ => exact valid

theorem Ended.outcome_ne {computation : Encoder graph τ α} {tables : τ}
    (ended : discipline.Ended first promise (computation.run { tables })) (fault : Fault) :
    Encoder.outcome computation tables ≠ .error (.malformed fault) := by
  unfold Encoder.outcome
  generalize computation.run { tables } = reached at ended
  cases ended with
  | ok _ _ _ => exact nofun
  | error _ diagnosis =>
      rintro same
      exact diagnosis fault (Except.error.inj same)

end Discipline

/-- Writing tokens out does not fail. -/
theorem map_ne_error {α β : Type} {outcome : Except Refusal α} {write : α → β} {refusal : Refusal}
    (other : outcome ≠ .error refusal) :
    (do let tokens ← outcome; return write tokens : Except Refusal β) ≠ .error refusal := by
  cases outcome with
  | ok tokens => exact nofun
  | error reason => exact fun same => other (congrArg Except.error (Except.error.inj same))

namespace Itanium

/-- Where the making of a name stops, in the state that it has come to. -/
def reached (graph : Graph) (target : Target) (id : SymbolId) :
    EStateM.Result Refusal (Session graph (Table Component)) (List Token) :=
  (encode target id : Encoder graph (List Token)).run { tables := Table.unbounded }

variable {graph : Graph} {id : SymbolId}

theorem ended_reached (formed : graph.WellFormed) (target : Target)
    (held : graph.Holds (.symbol id)) :
    (discipline graph).Ended { tables := Table.unbounded } (discipline graph).Written
      (reached graph target id) :=
  writes_encode formed target held _ _ (.refl _)
    ⟨Overlay.sound_empty formed, .empty, ⟨rfl, by simp [Table.unbounded], le_rfl⟩⟩

/-- The sequence number of a slot has seven digits if there are no more slots than a graph of 32-bit
handles can fill. -/
theorem length_sequenceChars_le {slot : Nat} (bound : slot < 11 * UInt32.size) :
    (sequenceChars slot).length ≤ 7 := by
  cases slot with
  | zero => exact Nat.zero_le 7
  | succ sequence =>
      exact Numeral.length_base36_le ((Nat.lt_of_succ_lt bound).trans_le (by decide))

/-- What the making of a name keeps to. -/
structure WithinBounds (graph : Graph) (target : Target) (id : SymbolId) : Prop where
  /-- The depth bound is not reached, and no handle leads nowhere. -/
  diagnosed : ∀ fault, nameFor graph target id ≠ .error (.malformed fault)
  /-- With 32 bits nothing is different, unless there are more types or slots than they number. -/
  limited : nameFor32 graph target id = nameFor graph target id ∨
    (∃ fault, nameFor32 graph target id = .error (.malformed fault) ∧ fault.IsWant) ∧
      (stop (reached graph target id)).Outgrows Table.size UInt32.size
  derived : (stop (reached graph target id)).overlay.derived.length ≤ 4 * graph.types.length
  slots : (stop (reached graph target id)).tables.size ≤
    graph.symbols.length + 10 * graph.types.length
  fits : graph.symbols.length + 10 * graph.types.length ≤ UInt32.size →
    nameFor32 graph target id = nameFor graph target id
  taken : ∀ tokens session, reached graph target id = .ok tokens session →
    ∀ slot, .backRef slot ∈ tokens → slot < session.tables.size
  digits : graph.Representable → ∀ slot < (stop (reached graph target id)).tables.size,
    (sequenceChars slot).length ≤ 7

/-- With 32 bits a name is made as without a limit, or there are more types or slots. -/
theorem limited (graph : Graph) (target : Target) (id : SymbolId) :
    nameFor32 graph target id = nameFor graph target id ∨
      (∃ fault, nameFor32 graph target id = .error (.malformed fault) ∧ fault.IsWant) ∧
        (stop (reached graph target id)).Outgrows Table.size UInt32.size := by
  have tracks : Tracks (encode target id : LimitedEncoder (some UInt32.size) graph (List Token))
      (encode target id) := tracks_encode target id
  obtain same | ⟨fault, limit, broke, want, same, outgrown⟩ :
    Encoder.outcome _ Table.unbounded = Encoder.outcome _ _ ∨ _ := tracks.outcome_eq
  · exact .inl (congrArg (· >>= fun tokens => pure (String.ofList (Token.write tokens))) same)
  · obtain rfl := Option.some.inj same
    exact .inr ⟨⟨fault, by rw [nameFor32, name, broke]; rfl, want⟩, outgrown⟩

theorem withinBounds (formed : graph.WellFormed) (target : Target)
    (held : graph.Holds (.symbol id)) : WithinBounds graph target id := by
  have ended := ended_reached formed target held
  have valid := ended.valid_stop
  have orderly := (keeps_encode formed target id {} _ le_rfl (orderly_start formed)).1
  have slots : (stop (reached graph target id)).tables.size ≤ _ := size_le orderly valid
  have derived := valid.modest.length_le valid.sound
  refine ⟨fun fault => map_ne_error (ended.outcome_ne fault), limited graph target id, derived, slots,
    fun few => (limited graph target id).resolve_right ?_, ?_, fun representable slot inside => ?_⟩
  · rintro ⟨-, outgrown | outgrown⟩ <;> omega
  · intro tokens session ran slot listed
    rw [ran] at ended
    cases ended with
    | ok _ _ written => exact written _ listed slot rfl
  · have symbols := representable.symbols
    have types := representable.types
    have small : slot < graph.symbols.length + 10 * graph.types.length := inside.trans_le slots
    exact length_sequenceChars_le (by omega)

end Itanium

namespace Microsoft

/-- Where the making of a name stops, in the state that it has come to. -/
def reached (graph : Graph) (target : Target) (id : SymbolId) :
    EStateM.Result Refusal (Session graph Tables) (List Token) :=
  (encode target id : Encoder graph (List Token)).run { tables := .bounded 10 }

variable {graph : Graph} {id : SymbolId}

theorem ended_reached (formed : graph.WellFormed) (target : Target)
    (held : graph.Holds (.symbol id)) :
    (discipline graph 10).Ended { tables := .bounded 10 } (discipline graph 10).Written
      (reached graph target id) :=
  writes_encode formed target held _ _ (.refl _)
    ⟨Overlay.sound_empty formed, .empty, ⟨.start 10, .start 10⟩⟩

/-- What the making of a name keeps to. -/
structure WithinBounds (graph : Graph) (target : Target) (id : SymbolId) : Prop where
  /-- The depth bound is not reached, and no handle leads nowhere. -/
  diagnosed : ∀ fault, nameFor graph target id ≠ .error (.malformed fault)
  /-- With handles of 32 bits nothing is different, unless there are more types than they number. -/
  limited : nameFor32 graph target id = nameFor graph target id ∨
    (∃ fault, nameFor32 graph target id = .error (.malformed fault) ∧ fault.IsWant) ∧
      UInt32.size < graph.types.length + (stop (reached graph target id)).overlay.derived.length
  derived : (stop (reached graph target id)).overlay.derived.length ≤ 4 * graph.types.length
  fits : 5 * graph.types.length ≤ UInt32.size →
    nameFor32 graph target id = nameFor graph target id
  names : (stop (reached graph target id)).tables.names.size ≤ 10
  types : (stop (reached graph target id)).tables.types.size ≤ 10
  references : ∀ tokens session, reached graph target id = .ok tokens session →
    ∀ index, .nameRef index ∈ tokens ∨ .typeRef index ∈ tokens → index < 10
  numbers : graph.Representable → ∀ tokens session, reached graph target id = .ok tokens session →
    ∀ value, .number value ∈ tokens → value < 2 ^ 128

/-- With handles of 32 bits a name is made as without a limit, or there are more types. -/
theorem limited (graph : Graph) (target : Target) (id : SymbolId) :
    nameFor32 graph target id = nameFor graph target id ∨
      (∃ fault, nameFor32 graph target id = .error (.malformed fault) ∧ fault.IsWant) ∧
        UInt32.size <
          graph.types.length + (stop (reached graph target id)).overlay.derived.length := by
  have tracks : Tracks (encode target id : LimitedEncoder (some UInt32.size) graph (List Token))
      (encode target id) := tracks_encode target id
  obtain same | ⟨fault, limit, broke, want, same, outgrown⟩ :
    Encoder.outcome _ (.bounded 10) = Encoder.outcome _ _ ∨ _ := tracks.outcome_eq
  · exact .inl (congrArg (· >>= fun tokens => pure (String.ofList (Token.write tokens))) same)
  · obtain rfl := Option.some.inj same
    exact .inr ⟨⟨fault, by rw [nameFor32, name, broke]; rfl, want⟩,
      outgrown.resolve_right (Nat.not_lt_zero _)⟩

theorem withinBounds (formed : graph.WellFormed) (target : Target)
    (held : graph.Holds (.symbol id)) : WithinBounds graph target id := by
  have ended := ended_reached formed target held
  have valid := ended.valid_stop
  have derived := valid.modest.length_le valid.sound
  have written {tokens : List Token} {session : Session graph Tables}
      (ran : reached graph target id = .ok tokens session) :
      ∀ token ∈ tokens, token.Small graph 10 := by
    rw [ran] at ended
    cases ended with
    | ok _ _ written => exact written
  exact {
    diagnosed := fun fault => map_ne_error (ended.outcome_ne fault)
    limited := limited graph target id
    derived := derived
    fits := fun few => (limited graph target id).resolve_right fun ⟨_, outgrown⟩ => by omega
    names := valid.admitted.names.size
    types := valid.admitted.types.size
    references := fun _ _ ran _ listed => listed.elim (written ran _) (written ran _)
    numbers := fun representable _ _ ran _ listed => written ran _ listed representable }

end Microsoft

/-- Making a name comes to an end for every symbol of every graph that can be built, on every target
and in both families: it is nested no deeper than the depth bound, and no handle leads nowhere, be
it that of a derived type or one that a refusal spells. Named or refused, it stops with four derived
types at most to each type of the graph, in the first family with slots in proportion to the graph,
and in the second within the ten entries of each table. So 32 bits are enough for handles and
sequence numbers unless the graph is very large, and it breaks off for want of one only where there
are more types or slots than that. A slot that is referred back to is taken, and its sequence number
has seven digits at most; references in the second family are digits, and its numbers, which have
128 bits, are written with 32 letters at most. -/
theorem nameFor_within_bounds {graph : Graph} (built : graph.Built) (target : Target)
    {id : SymbolId} (held : graph.Holds (.symbol id)) :
    Itanium.WithinBounds graph target id ∧ Microsoft.WithinBounds graph target id ∧
      ∀ value < 2 ^ 128, (Numeral.hexLetters value).length ≤ 32 :=
  ⟨Itanium.withinBounds built.wellFormed target held,
    Microsoft.withinBounds built.wellFormed target held, fun _ => Numeral.length_hexLetters_le⟩

/-- `void draw(Grid<12> &, int (&)[4], Grid<12> &)`, the parameters passed by reference. -/
def grids : Graph where
  symbols :=
    [{ ident := "app", sort := .moduleScope },
      { ident := "Grid", parent := some ⟨0⟩, sort := .template none },
      { ident := "Grid", parent := some ⟨0⟩, sort := .specialization ⟨1⟩ [.value ⟨1⟩ 12] },
      { ident := "Grid", parent := some ⟨2⟩, sort := .record .struct },
      { ident := "draw", parent := some ⟨0⟩, sort := .function { type := ⟨4⟩ } }]
  types :=
    [{ form := .basic .void }, { form := .basic .int32 }, { form := .record ⟨3⟩ },
      { form := .staticArray 4 ⟨1⟩ },
      { form := .function
          { result := ⟨0⟩, params := [⟨⟨2⟩, .ref⟩, ⟨⟨3⟩, .ref⟩, ⟨⟨2⟩, .ref⟩] } }]

theorem grids_built : grids.Built :=
  Graph.built_of_takeAll?
    [.type { form := .basic .void }, .type { form := .basic .int32 },
      .symbol { ident := "app", sort := .moduleScope },
      .symbol { ident := "Grid", parent := some ⟨0⟩, sort := .template none },
      .specialization ⟨1⟩ [.value ⟨1⟩ 12],
      .symbol { ident := "Grid", parent := some ⟨2⟩, sort := .record .struct },
      .type { form := .record ⟨3⟩ }, .type { form := .staticArray 4 ⟨1⟩ },
      .type
        { form := .function
            { result := ⟨0⟩, params := [⟨⟨2⟩, .ref⟩, ⟨⟨3⟩, .ref⟩, ⟨⟨2⟩, .ref⟩] } },
      .symbol { ident := "draw", parent := some ⟨0⟩, sort := .function { type := ⟨4⟩ } }] rfl

theorem grids_representable : grids.Representable where
  symbols := by decide
  types := by decide
  dims := by decide
  numbers := by decide

/-- The third parameter is referred back to in both families, and the dimension is a number. -/
theorem nameFor_within_bounds_grids :
    (∃ tokens session, Itanium.reached grids Target.itanium64 ⟨4⟩ = .ok tokens session ∧
      Itanium.Token.write tokens = "_Z4drawR4GridILi12EERA4_iS1_".toList ∧
      .backRef 2 ∈ tokens ∧ 2 < session.tables.size ∧ (Itanium.sequenceChars 2).length ≤ 7 ∧
      Itanium.nameFor32 grids Target.itanium64 ⟨4⟩ = .ok "_Z4drawR4GridILi12EERA4_iS1_") ∧
    ∃ tokens session, Microsoft.reached grids Target.microsoft64 ⟨4⟩ = .ok tokens session ∧
      Microsoft.Token.write tokens = "?draw@@YAXAEAU?$Grid@$0M@@@AEAY03H0@Z".toList ∧
      .typeRef 0 ∈ tokens ∧ 0 < 10 ∧ .number 4 ∈ tokens ∧ 4 < 2 ^ 128 ∧
      (Numeral.hexLetters 4).length ≤ 32 ∧
      Microsoft.nameFor32 grids Target.microsoft64 ⟨4⟩ =
        .ok "?draw@@YAXAEAU?$Grid@$0M@@@AEAY03H0@Z" := by
  have held : grids.Holds (.symbol ⟨4⟩) := by decide
  obtain ⟨first, -, -⟩ := nameFor_within_bounds grids_built Target.itanium64 held
  obtain ⟨-, second, letters⟩ := nameFor_within_bounds grids_built Target.microsoft64 held
  constructor
  · have taken := first.taken _ _ rfl 2 (by decide +kernel)
    exact ⟨_, _, rfl, by decide +kernel, by decide +kernel, taken,
      first.digits grids_representable 2 taken, (first.fits (by decide)).trans (by decide +kernel)⟩
  · have number := second.numbers grids_representable _ _ rfl 4 (by decide +kernel)
    refine ⟨_, _, rfl, by decide +kernel, by decide +kernel,
      second.references _ _ rfl 0 (.inr ?_), by decide +kernel, number, letters 4 number,
      (second.fits (by decide)).trans (by decide +kernel)⟩
    all_goals decide +kernel

/-! ## Handles that run out -/

/-- `void` below so many pointers, with a handle for each of them. -/
def pointers : Nat → Graph
  | 0 => ((({} : Graph).addModule "app").2.internType { form := .basic .void }).2
  | levels + 1 => ((pointers levels).internType { form := .pointer ⟨levels⟩ }).2

/-- The type of a function that takes the outermost of these pointers by reference. -/
def takeNode (levels : Nat) : TypeNode :=
  { form := .function { result := ⟨0⟩, params := [⟨⟨levels⟩, .ref⟩] } }

/-- A declaration of such a function. -/
def crowded (levels : Nat) : Graph :=
  (((pointers levels).internType (takeNode levels)).2.declare "take" ⟨0⟩
    (.function { type := ⟨levels + 1⟩ })).2

theorem types_pointers (levels : Nat) : (pointers levels).types =
    { form := .basic .void } ::
      (List.range levels).map fun level => { form := .pointer ⟨level⟩ } := by
  induction levels with
  | zero => rfl
  | succ levels ih =>
      have fresh : ({ form := .pointer ⟨levels⟩ } : TypeNode) ∉ (pointers levels).types := by
        simp [ih]
      rw [pointers, Graph.types_internType, if_neg fresh, ih, List.range_succ, List.map_append]
      rfl

theorem symbols_pointers (levels : Nat) :
    (pointers levels).symbols = [{ ident := "app", sort := .moduleScope }] := by
  induction levels with
  | zero => rfl
  | succ levels ih => rw [pointers, Graph.symbols_internType, ih]

theorem pointers_built (levels : Nat) : (pointers levels).Built := by
  induction levels with
  | zero =>
      exact Graph.built_of_takeAll?
        [.symbol { ident := "app", sort := .moduleScope }, .type { form := .basic .void }] rfl
  | succ levels ih =>
      refine ih.internType fun mention listed => ?_
      obtain rfl : mention = .type ⟨levels⟩ := by
        simpa [TypeForm.mentions, TypeForm.parts, TypeForm.symbol?, eq_comm] using listed
      simp [Graph.Holds, types_pointers]

theorem types_crowded (levels : Nat) :
    (crowded levels).types = (pointers levels).types ++ [takeNode levels] := by
  have fresh : takeNode levels ∉ (pointers levels).types := by simp [types_pointers, takeNode]
  exact (Graph.types_internType _ _).trans (if_neg fresh)

theorem length_types_crowded (levels : Nat) : (crowded levels).types.length = levels + 2 := by
  simp [types_crowded, types_pointers]

theorem symbols_crowded (levels : Nat) : (crowded levels).symbols =
    [{ ident := "app", sort := .moduleScope },
      { ident := "take", parent := some ⟨0⟩, sort := .function { type := ⟨levels + 1⟩ } }] := by
  simp [crowded, Graph.declare, Graph.addSymbol, Graph.symbols_internType, symbols_pointers]

theorem crowded_built (levels : Nat) : (crowded levels).Built := by
  refine .addSymbol (.internType (pointers_built levels) ?_) ?_ nofun rfl
  · simp [takeNode, TypeForm.mentions, TypeForm.parts, TypeForm.symbol?, Graph.Holds,
      types_pointers]
  · simp [Symbol.mentions, SymbolSort.mentions, Graph.Holds, Graph.types_internType,
      Graph.symbols_internType, symbols_pointers, types_pointers, takeNode]

/-- With a handle for each of its types and no more, the reference finds none. -/
theorem admits_crowded (levels : Nat) :
    ({} : Overlay (crowded levels)).admits
      (({} : Overlay (crowded levels)).passed ⟨⟨levels⟩, .ref⟩).2 (some (levels + 2)) = false := by
  have fresh : (crowded levels).findType? { form := .reference ⟨levels⟩ } = none := by
    simp [Graph.findType?, types_crowded, types_pointers, takeNode]
  simp [Overlay.admits, Overlay.passed, Overlay.referenceTo, Overlay.intern, fresh,
    length_types_crowded]

theorem run_passed_crowded (levels : Nat) {τ : Type} (tables : τ) :
    (Encoder.passed ⟨⟨levels⟩, .ref⟩).run
        ({ tables } : Session (crowded levels) τ (some (levels + 2))) =
      .error (.malformed .noHandle) { tables } := by
  have derived : (Encoder.derive (·.passed ⟨⟨levels⟩, .ref⟩)).run
      ({ tables } : Session (crowded levels) τ (some (levels + 2))) =
        .error (.malformed .noHandle) { tables } := by
    rw [Encoder.run_derive, admits_crowded, if_neg nofun]
  simp only [EStateM.run] at derived ⊢
  simp only [Encoder.passed, bind, EStateM.bind, derived]

/-- The scope and the signature of the function are read, and then its first parameter is passed. -/
theorem name_crowded (machine : Target) (levels : Nat) :
    Itanium.name (crowded levels) machine ⟨1⟩ (some (levels + 2)) =
      .error (.malformed .noHandle) := by
  have known : (crowded levels).symbol ⟨1⟩ = .ok
      { ident := "take", parent := some ⟨0⟩, sort := .function { type := ⟨levels + 1⟩ } } := by
    simp [Graph.symbol, symbols_crowded]
  have typed : ({} : Overlay (crowded levels)).type ⟨levels + 1⟩ = .ok (takeNode levels) := by
    simp [Overlay.type, types_crowded, types_pointers]
  have outside : (crowded levels).scopeParent ⟨1⟩ = .ok none := by
    simp [Graph.scopeParent, symbols_crowded, Graph.symbol]
    rfl
  have refused := run_passed_crowded levels (Table.unbounded : Table Itanium.Component)
  have read (session : Session (crowded levels) (Table Itanium.Component) (some (levels + 2))) :
      (EStateM.get session : EStateM.Result Refusal _ _) = .ok session session := rfl
  simp only [EStateM.run] at refused
  simp [Itanium.name, Itanium.encode, Itanium.functionName, Itanium.functionPath,
    Itanium.sourceName, Itanium.parameters, Itanium.parameter, Encoder.concat, Encoder.outcome,
    Encoder.symbol, Encoder.type, Encoder.signature, Encoder.scopeParent, Encoder.ofExcept, known,
    typed, takeNode, outside, refused, EStateM.run, bind, EStateM.bind, pure, EStateM.pure, get,
    getThe, MonadStateOf.get, read, Except.bind]

/-- A graph can be built that has a type for each handle of 32 bits. The name of a function in it that
takes a parameter by reference breaks off, and so does the name of a slot that is numbered beyond
these bits. -/
theorem handles_run_out :
    (crowded (UInt32.size - 2)).Built ∧ (crowded (UInt32.size - 2)).Holds (.symbol ⟨1⟩) ∧
      (crowded (UInt32.size - 2)).types.length = UInt32.size ∧
      Itanium.nameFor32 (crowded (UInt32.size - 2)) Target.itanium64 ⟨1⟩ =
        .error (.malformed .noHandle) ∧
      Itanium.slotName? (UInt32.size + 1) = none := by
  have count : UInt32.size - 2 + 2 = UInt32.size := rfl
  refine ⟨crowded_built _, by simp [Graph.Holds, symbols_crowded],
    (length_types_crowded _).trans count, ?_, by simp [Itanium.slotName?]⟩
  rw [Itanium.nameFor32]
  simpa only [count] using name_crowded Target.itanium64 (UInt32.size - 2)

end LinkName
