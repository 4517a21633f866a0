import LinkName.Proofs.Bounds
import LinkName.Proofs.Itanium.Erasure
import LinkName.Proofs.Itanium.Slots
import LinkName.Proofs.Microsoft.Erasure
import LinkName.Proofs.Microsoft.Growth
import LinkName.Proofs.Overloads

/-!
One slot for each type. Both families know types by handle, and two handles are equal exactly if
their types have the same structure, so no type has two slots, however it was derived, and where a
type has a slot it is referred back to. Types of different structure can be written alike. They are
where they differ in nothing but what the family leaves out when it writes a type, and then each may
have a slot.
-/
namespace LinkName

variable {graph : Graph}

/-- Handles of types that all differ in structure. -/
def Overlay.Apart (overlay : Overlay graph) (ids : List TypeId) : Prop :=
  ∃ trees, List.Forall₂ overlay.Unfolds ids trees ∧ trees.Nodup

theorem Overlay.Sound.unfolds_biUnique {overlay : Overlay graph} (sound : overlay.Sound) :
    Relator.BiUnique overlay.Unfolds :=
  ⟨fun _ _ _ unfolds also => unfolds.injective sound also, fun _ _ _ => Unfolds.unique⟩

namespace Itanium

/-- The type that has a slot, if it is that of a type. -/
def Component.type? : Component → Option TypeId
  | .type id => some id
  | .symbol _ | .unnamed => none

theorem Orderly.apart {session : Session graph (Table Component)} (orderly : Orderly session) :
    session.overlay.Apart (session.tables.entries.filterMap Component.type?) := by
  obtain ⟨table, -, related⟩ := orderly.read
  have once : (session.tables.entries.filterMap Component.type?).Nodup := by
    have same : session.tables.entries.filterMap Component.type? =
        (session.tables.entries.filter (· ≠ .unnamed)).filterMap Component.type? := by
      rw [List.filterMap_filter]
      refine List.filterMap_congr fun component _ => ?_
      cases component <;> rfl
    rw [same]
    refine orderly.once.filterMap fun first second id left right => ?_
    cases first <;> cases left
    cases second <;> cases right
    rfl
  have unfolded : ∃ trees,
      List.Forall₂ session.overlay.Unfolds (session.tables.entries.filterMap Component.type?)
        trees := by
    generalize session.tables.entries = components, table.entries = keys at related
    induction related with
    | nil => exact ⟨[], .nil⟩
    | cons head _ ih =>
        obtain ⟨trees, unfolds⟩ := ih
        cases head with
        | symbol | unnamed => exact ⟨trees, unfolds⟩
        | type tree => exact ⟨_, .cons tree unfolds⟩
  obtain ⟨trees, unfolds⟩ := unfolded
  exact ⟨trees, unfolds, (List.rel_nodup orderly.sound.unfolds_biUnique unfolds).mp once⟩

end Itanium

namespace Microsoft

/-- Whether a type is recorded where it is outermost. Besides builtin types, all are. -/
def isSaved (machine : Target) (tree : TypeTree) : Bool :=
  match tree with
  | .basic basic _ => (tree.isConst && machine.isLegacy) || basic == .bool
  | _ => true

/-- The script writes the type only where it has not been recorded. -/
def Script.Asks (tree : TypeTree) (script : Script) : Prop :=
  (∃ refusal, script = .refuse refusal) ∨ (∃ body, script = .orTypeRef tree body) ∨
    ∃ lead body, script = .typeRefAfter tree lead body

theorem Script.Asks.run {tree : TypeTree} {script : Script} (asks : script.Asks tree)
    {record last : Record} {tokens : List Token} {index : Nat}
    (found : record.types.find? tree = some index)
    (ran : script.run record = .ok (tokens, last)) : tokens = [.typeRef index] := by
  have known := List.mem_of_getElem? (Table.getElem?_of_find? found)
  rcases asks with ⟨refusal, rfl⟩ | ⟨body, rfl⟩ | ⟨lead, body, rfl⟩
  · cases ran
  · rcases run_orTypeRef ran with ⟨other, same, rfl, -⟩ | ⟨absent, -⟩
    · rw [Option.some.inj (same.symm.trans found)]
    · exact absurd known absent
  · obtain ⟨inner, middle, begun, outcome⟩ := run_typeRefAfter ran
    have grows := (run_grows body begun).types
    rcases outcome with ⟨other, same, rfl, -⟩ | ⟨absent, -, -⟩
    · rw [Option.some.inj (same.symm.trans (grows.find? found))]
    · exact absurd (grows.entries.subset known) absent

theorem Plan.type_asks {plan : Plan} {machine : Target} {tree : TypeTree}
    (saved : isSaved machine tree = true) : (plan.type graph machine tree {}).Asks tree := by
  have refuse (refusal : Refusal) : (Script.refuse refusal).Asks tree := .inl ⟨_, rfl⟩
  have recorded (body : Script) : (Script.recorded {} tree body).Asks tree := .inr (.inl ⟨_, rfl⟩)
  have recordedAfter (lead : List Token) (body : Script) :
      (Script.recordedAfter {} tree lead body).Asks tree := .inr (.inr ⟨_, _, rfl⟩)
  unfold Plan.type
  split
  · exact refuse _
  · cases tree with
    | basic basic quals =>
        dsimp only [Plan.basicType]
        split
        · exact refuse _
        · have saves : ((TypeTree.basic basic quals).isConst &&
              (({} : Place).indirect || machine.isLegacy) || basic == .bool) = true := by
            simpa [isSaved] using saved
          rw [if_pos saves]
          exact recorded _
    | layer around inner quals =>
        cases around with
        | pointer =>
            dsimp only [Plan.pointer]
            split
            · exact recordedAfter _ _
            · exact recorded _
            · exact recorded _
        | reference | staticArray | vector => exact recorded _
        | dynamicArray | delegate => exact refuse _
    | named naming symbol quals =>
        cases naming with
        | typedef => exact refuse _
        | _ => exact recorded _
    | assocArray | function => exact refuse _

/-- What a session is always like: the types in its tables can be read as trees. -/
structure Readable (session : Session graph Tables) : Prop where
  sound : session.overlay.Sound
  read : ∃ record, (reading graph).relates session.overlay session.tables record

theorem readable_start (formed : graph.WellFormed) (limit : Nat) :
    Readable ({ tables := Tables.bounded limit } : Session graph Tables) :=
  ⟨Overlay.sound_empty formed, Record.bounded limit, rfl, rfl, .nil⟩

/-- A call for a type leaves a readable session behind, and refers back to a type in the table. -/
theorem readable_of_type (formed : graph.WellFormed) {machine : Target} {depth : Nat} {id : TypeId}
    {tree : TypeTree} {session later : Session graph Tables} {tokens : List Token}
    (readable : Readable session) (unfolds : session.overlay.Unfolds id tree)
    (ran : ((encoding machine depth : Encoding graph).type id {}).run session = .ok tokens later) :
    Readable later ∧
      (isSaved machine tree = true → id ∈ session.tables.types.entries →
        ∃ index : Nat, session.tables.types.entries[index]? = some id ∧
          tokens = [.typeRef index]) := by
  obtain ⟨record, related⟩ := readable.read
  have agrees := (followsPlan_within formed machine depth).type session.overlay id tree {} unfolds
    session record le_rfl readable.sound related
  rw [ran] at agrees
  generalize written : (Plan.within graph machine depth (.type tree {})).run.run record = course
    at agrees
  cases agrees with
  | ok _ sound after =>
      refine ⟨⟨sound, _, after⟩, fun saved known => ?_⟩
      cases depth with
      | zero => cases ran
      | succ depth =>
          cases found : session.tables.types.find? id with
          | none => exact absurd known (Table.find?_eq_none_iff.mp found)
          | some index =>
              have listed : record.types.find? tree = some index :=
                (idxOf?_unfolds readable.sound related.2.2 unfolds).symm.trans found
              exact ⟨index, Table.getElem?_of_find? found,
                (Plan.type_asks saved).run listed written⟩

theorem apart_of_run (formed : graph.WellFormed) {machine : Target} {id : SymbolId}
    {session : Session graph Tables} {tokens : List Token}
    (ran : (encode machine id : Encoder graph (List Token)).run { tables := Tables.bounded 10 } =
      .ok tokens session) : session.overlay.Apart session.tables.types.entries := by
  obtain ⟨record, written, -, -, related⟩ := run_of_encode formed ran
  exact ⟨_, related, Script.run_nodup _ written List.nodup_nil⟩

end Microsoft

/-! ## Sessions of whole names -/

theorem Itanium.readByResidue_of_run (formed : graph.WellFormed) {target : Target} {id : SymbolId}
    {session : Session graph (Table Component)} {tokens : List Token}
    (ran : (encode target id : Encoder graph (List Token)).run { tables := Table.unbounded } =
      .ok tokens session) : ReadByResidue target session.overlay := by
  have ended := ended_reached formed target (holds_of_encode ran)
  rw [reached, ran] at ended
  cases ended with
  | ok _ valid _ => exact readByResidue formed target valid.sound valid.modest

theorem Microsoft.readByResidue_of_run (formed : graph.WellFormed) {target : Target} {id : SymbolId}
    {session : Session graph Tables} {tokens : List Token}
    (ran : (encode target id : Encoder graph (List Token)).run { tables := Tables.bounded 10 } =
      .ok tokens session) : ReadByResidue target session.overlay := by
  have ended := ended_reached formed target (holds_of_encode ran)
  rw [reached, ran] at ended
  cases ended with
  | ok _ valid _ => exact readByResidue formed target valid.sound valid.modest

/-- No two slots of either table are for types of one structure. Types, with slots or without, are
written alike where the same is left of them. In the one family a type that has been written is
referred back to from then on; in the other, wherever it has been recorded. -/
theorem types_share_slots (built : graph.Built) (target : Target) :
    (∀ id tokens session,
      (Itanium.encode target id : Itanium.Encoder graph (List Itanium.Token)).run
          { tables := Table.unbounded } = .ok tokens session →
        session.overlay.Apart (session.tables.entries.filterMap Itanium.Component.type?) ∧
          Itanium.ReadByResidue target session.overlay) ∧
    (∀ id tokens session,
      (Microsoft.encode target id : Microsoft.Encoder graph (List Microsoft.Token)).run
          { tables := Microsoft.Tables.bounded 10 } = .ok tokens session →
        session.overlay.Apart session.tables.types.entries ∧
          Microsoft.ReadByResidue target session.overlay) ∧
    (∀ depth id place session tokens later node, Itanium.Orderly session →
      ((Itanium.encoding target depth : Itanium.Encoding graph).type id place).run
          session = .ok tokens later →
      session.overlay.type id = .ok node → Itanium.isPlain node = false →
      ∀ more other place' last tree, Itanium.Orderly last → Itanium.Extends later last →
        last.overlay.Unfolds id tree → last.overlay.Unfolds other tree →
        ∃ slot, ((Itanium.encoding target (more + 1) : Itanium.Encoding graph).type
          other place').run last = .ok [.backRef slot] last) ∧
    ∀ depth id tree session tokens later, Microsoft.Readable session →
      session.overlay.Unfolds id tree →
      ((Microsoft.encoding target depth : Microsoft.Encoding graph).type id {}).run
          session = .ok tokens later →
      Microsoft.Readable later ∧ (Microsoft.isSaved target tree = true →
        ∀ earlier ∈ session.tables.types.entries, session.overlay.Unfolds earlier tree →
          ∃ index : Nat, session.tables.types.entries[index]? = some earlier ∧
            tokens = [.typeRef index]) := by
  have formed := built.wellFormed
  refine ⟨fun id tokens session ran => ?_, fun id tokens session ran =>
    ⟨Microsoft.apart_of_run formed ran, Microsoft.readByResidue_of_run formed ran⟩, ?_, ?_⟩
  · have kept := (Itanium.keeps_encode formed target id {} _ le_rfl
      (Itanium.orderly_start formed)).1
    rw [ran] at kept
    exact ⟨Itanium.Orderly.apart kept, Itanium.readByResidue_of_run formed ran⟩
  · intro depth id place session tokens later node orderly ran found worthy more other place' last
      tree tidy grown unfolds also
    obtain rfl := unfolds.injective tidy.sound also
    obtain ⟨kept, further⟩ := (Itanium.keepsPlan_within formed formed.order target
      depth).type {} id place session session.overlay.empty_le orderly
    rw [ran] at kept further
    cases depth with
    | zero => cases ran
    | succ depth =>
        exact Itanium.type_again worthy found kept.unlimited ran
          (Overlay.type_mono (further.overlay.trans grown.overlay) found) grown.entries.subset
  · intro depth id tree session tokens later readable unfolds ran
    obtain ⟨kept, known⟩ := Microsoft.readable_of_type formed readable unfolds ran
    refine ⟨kept, fun saved earlier listed also => ?_⟩
    obtain rfl := unfolds.injective readable.sound also
    exact known saved listed

/-- `void bind(void (*)(const int), void (*)(int))`, `void join(void (*)(int), void (*)(int))`. -/
def binds : Graph where
  symbols :=
    [{ ident := "app", sort := .moduleScope },
      { ident := "bind", parent := some ⟨0⟩, sort := .function { type := ⟨7⟩ } },
      { ident := "join", parent := some ⟨0⟩, sort := .function { type := ⟨8⟩ } }]
  types :=
    [{ form := .basic .int32 }, { form := .basic .int32, quals := { isConst := true } },
      { form := .basic .void },
      { form := .function { result := ⟨2⟩, params := [{ type := ⟨1⟩ }] } },
      { form := .function { result := ⟨2⟩, params := [{ type := ⟨0⟩ }] } },
      { form := .pointer ⟨3⟩ }, { form := .pointer ⟨4⟩ },
      { form := .function { result := ⟨2⟩, params := [{ type := ⟨5⟩ }, { type := ⟨6⟩ }] } },
      { form := .function { result := ⟨2⟩, params := [{ type := ⟨6⟩ }, { type := ⟨6⟩ }] } }]

theorem binds_built : binds.Built :=
  Graph.built_of_takeAll?
    [.symbol { ident := "app", sort := .moduleScope }, .type { form := .basic .int32 },
      .type { form := .basic .int32, quals := { isConst := true } }, .type { form := .basic .void },
      .type { form := .function { result := ⟨2⟩, params := [{ type := ⟨1⟩ }] } },
      .type { form := .function { result := ⟨2⟩, params := [{ type := ⟨0⟩ }] } },
      .type { form := .pointer ⟨3⟩ }, .type { form := .pointer ⟨4⟩ },
      .type { form := .function { result := ⟨2⟩, params := [{ type := ⟨5⟩ }, { type := ⟨6⟩ }] } },
      .type { form := .function { result := ⟨2⟩, params := [{ type := ⟨6⟩ }, { type := ⟨6⟩ }] } },
      .symbol { ident := "bind", parent := some ⟨0⟩, sort := .function { type := ⟨7⟩ } },
      .symbol { ident := "join", parent := some ⟨0⟩, sort := .function { type := ⟨8⟩ } }] rfl

theorem drawings_ordinary (id : SymbolId) : drawings.OrdinaryUpwards id := by
  rintro ⟨_ | _ | _ | _ | _ | index⟩ symbol - stored <;> cases stored <;>
    exact ⟨rfl, by rintro info ⟨⟩ <;> decide⟩

theorem drawings_legible {id : SymbolId} {symbol : Symbol}
    (stored : drawings.symbol id = .ok symbol) : Microsoft.Reader.Legible symbol.ident := by
  have each : ∀ symbol ∈ drawings.symbols, Microsoft.Reader.Legible symbol.ident := by
    decide
  exact each symbol (List.mem_of_getElem? (Graph.symbol_eq_ok_iff.mp stored))

/-- The second parameter of `join` is the first one again. The parameters of `bind` are written
alike, for the same is left of them; and of a point and a `const` point, and of the types of the
functions `draw`, the same is left, for they are written alike. -/
theorem types_share_slots_join :
    Itanium.nameFor binds .itanium64 ⟨2⟩ = .ok "_Z4joinPFviES0_" ∧
    Microsoft.nameFor binds .microsoft64 ⟨2⟩ = .ok "?join@@YAXP6AXH@Z0@Z" ∧
    (∃ tokens session,
      (Itanium.encode Target.itanium64 ⟨2⟩ :
          Itanium.Encoder binds (List Itanium.Token)).run { tables := Table.unbounded } =
        .ok tokens session ∧
      session.overlay.Apart (session.tables.entries.filterMap Itanium.Component.type?)) ∧
    (∃ tokens session,
      (Itanium.encode Target.itanium64 ⟨1⟩ :
          Itanium.Encoder binds (List Itanium.Token)).run { tables := Table.unbounded } =
        .ok tokens session ∧
      ∀ text, Itanium.spelling Target.itanium64 session.overlay ⟨5⟩ .outermost = .ok text →
        text = "PFviE".toList) ∧
    (∃ tokens session,
      (Microsoft.encode Target.microsoft64 ⟨1⟩ :
          Microsoft.Encoder binds (List Microsoft.Token)).run
            { tables := Microsoft.Tables.bounded 10 } = .ok tokens session ∧
      ∀ text, Microsoft.spelling Target.microsoft64 session.overlay ⟨5⟩ = .ok text →
        text = "P6AXH@Z".toList) ∧
    (∃ tokens session,
      (Itanium.encode Target.itanium64 ⟨3⟩ :
          Itanium.Encoder drawings (List Itanium.Token)).run { tables := Table.unbounded } =
        .ok tokens session ∧
      Itanium.residue drawings .itanium64 (drawings.tree ⟨5⟩) .nested =
        Itanium.residue drawings .itanium64 (drawings.tree ⟨6⟩) .nested) ∧
    (∃ tokens session,
      (Microsoft.encode Target.microsoft64 ⟨3⟩ :
          Microsoft.Encoder drawings (List Microsoft.Token)).run
            { tables := Microsoft.Tables.bounded 10 } = .ok tokens session ∧
      Microsoft.residue drawings .microsoft64 (drawings.tree ⟨2⟩) .parameter =
        Microsoft.residue drawings .microsoft64 (drawings.tree ⟨3⟩) .parameter) ∧
    (∃ tokens later slot,
      ((Itanium.encoding Target.itanium64 8 : Itanium.Encoding binds).type ⟨6⟩
          .outermost).run { tables := Table.unbounded } = .ok tokens later ∧
      ((Itanium.encoding Target.itanium64 8 : Itanium.Encoding binds).type ⟨6⟩
          .outermost).run later = .ok [.backRef slot] later) ∧
    ∃ tokens later last, ∃ index : Nat,
      ((Microsoft.encoding Target.microsoft64 8 : Microsoft.Encoding binds).type ⟨6⟩
          {}).run { tables := Microsoft.Tables.bounded 10 } = .ok tokens later ∧
      ((Microsoft.encoding Target.microsoft64 8 : Microsoft.Encoding binds).type ⟨6⟩
          {}).run later = .ok [.typeRef index] last := by
  have formed := binds_built.wellFormed
  have held : binds.Holds (.type ⟨6⟩) := Graph.holds_type_iff.mpr ⟨_, rfl⟩
  have heldOther : binds.Holds (.type ⟨5⟩) := Graph.holds_type_iff.mpr ⟨_, rfl⟩
  have drawn := drawings_built.wellFormed
  have holds (index : Nat) (inside : index < 7) : drawings.Holds (.type ⟨index⟩) := inside
  have symbols {index other : Nat} (inside : index < 7) (inside' : other < 7) :
      ∀ tree ∈ [drawings.tree ⟨index⟩, drawings.tree ⟨other⟩],
        ∀ symbol ∈ tree.symbols, drawings.Holds (.symbol symbol) :=
    List.forall_mem_cons.mpr ⟨drawn.holds_symbols (holds index inside),
      List.forall_mem_singleton.mpr (drawn.holds_symbols (holds other inside'))⟩
  obtain ⟨apart, -, again, -⟩ := types_share_slots binds_built Target.itanium64
  obtain ⟨-, alike, -, known⟩ := types_share_slots binds_built Target.microsoft64
  obtain ⟨written, -⟩ := types_share_slots drawings_built Target.itanium64
  obtain ⟨-, written', -⟩ := types_share_slots drawings_built Target.microsoft64
  refine ⟨by decide +kernel, by decide +kernel, ⟨_, _, rfl, (apart ⟨2⟩ _ _ rfl).1⟩,
    ⟨_, _, rfl, fun text spelled => ?_⟩, ⟨_, _, rfl, fun text spelled => ?_⟩, ⟨_, _, rfl, ?_⟩,
    ⟨_, _, rfl, ?_⟩, ?_, ?_⟩
  · exact ((apart ⟨1⟩ _ _ rfl).2 ⟨5⟩ ⟨6⟩ _ _ .outermost .outermost text "PFviE".toList
      (formed.unfolds_tree heldOther _) (formed.unfolds_tree held _) spelled
      (by decide +kernel)).1 rfl
  · exact ((alike ⟨1⟩ _ _ rfl).2 ⟨5⟩ ⟨6⟩ _ _ text "P6AXH@Z".toList
      (formed.unfolds_tree heldOther _) (formed.unfolds_tree held _) spelled
      (by decide +kernel)).1 rfl
  · exact ((written ⟨3⟩ _ _ rfl).2 ⟨5⟩ ⟨6⟩ _ _ .nested .nested "FvN3geo5PointERiE".toList _
      (drawn.unfolds_tree (holds 5 (by decide)) _) (drawn.unfolds_tree (holds 6 (by decide)) _)
      (by decide +kernel) (by decide +kernel)).2
        (Itanium.delimited_of_plain drawn drawings_telling.plain drawings_telling.idents _
          (symbols (by decide) (by decide))) rfl
  · exact ((written' ⟨3⟩ _ _ rfl).2 ⟨2⟩ ⟨3⟩ _ _ "UPoint@geo@@".toList _
      (drawn.unfolds_tree (holds 2 (by decide)) _) (drawn.unfolds_tree (holds 3 (by decide)) _)
      (by decide +kernel) (by decide +kernel)).2 (.named _ _ _) (.named _ _ _)
        (Microsoft.delimited_of_ordinary drawn _ (symbols (by decide) (by decide))
          (fun _ _ symbol _ => drawings_ordinary symbol) fun _ _ => drawings_legible) rfl
  · have start := Itanium.orderly_start formed
    have kept := ((Itanium.keepsPlan_within formed formed.order Target.itanium64
      8).type {} ⟨6⟩ .outermost _ (Overlay.empty_le _) start).1
    obtain ⟨slot, referred⟩ := again 8 ⟨6⟩ .outermost _ _ _ _ start rfl rfl rfl 7 ⟨6⟩ .outermost _ _
      kept (.refl _) (formed.unfolds_tree held _) (formed.unfolds_tree held _)
    exact ⟨_, _, slot, rfl, referred⟩
  · obtain ⟨readable, -⟩ := known 8 ⟨6⟩ _ _ _ _ (Microsoft.readable_start formed 10)
      (formed.unfolds_tree held _) rfl
    obtain ⟨-, recorded⟩ := known 8 ⟨6⟩ _ _ _ _ readable (formed.unfolds_tree held _) rfl
    obtain ⟨index, -, same⟩ := recorded rfl ⟨6⟩ List.mem_cons_self (formed.unfolds_tree held _)
    exact ⟨_, _, _, index, rfl, congrArg (EStateM.Result.ok · _) same⟩

/-- The parameters of `bind` are written alike but differ in structure, and so each has a slot. -/
theorem bind_spelled_twice :
    Itanium.nameFor binds .itanium64 ⟨1⟩ = .ok "_Z4bindPFviEPFviE" ∧
    Microsoft.nameFor binds .microsoft64 ⟨1⟩ = .ok "?bind@@YAXP6AXH@ZP6AXH@Z@Z" ∧
    (∃ tokens session,
      (Itanium.encode Target.itanium64 ⟨1⟩ :
          Itanium.Encoder binds (List Itanium.Token)).run { tables := Table.unbounded } =
        .ok tokens session ∧
      session.tables.entries[1]? = some (.type ⟨5⟩) ∧
      session.tables.entries[3]? = some (.type ⟨6⟩) ∧
      ∀ id ∈ [(⟨5⟩ : TypeId), ⟨6⟩], Itanium.Token.write <$> Encoder.outcome
        ((Itanium.encoding Target.itanium64 8 : Itanium.Encoding binds).type id
          .outermost) (Table.bounded 0) = .ok "PFviE".toList) ∧
    ∃ tokens session,
      (Microsoft.encode Target.microsoft64 ⟨1⟩ :
          Microsoft.Encoder binds (List Microsoft.Token)).run
            { tables := Microsoft.Tables.bounded 10 } = .ok tokens session ∧
      session.tables.types.entries[0]? = some ⟨5⟩ ∧ session.tables.types.entries[1]? = some ⟨6⟩ ∧
      ∀ id ∈ [(⟨5⟩ : TypeId), ⟨6⟩], Microsoft.Token.write <$> Encoder.outcome
        ((Microsoft.encoding Target.microsoft64 8 : Microsoft.Encoding binds).type id
          {}) (Microsoft.Tables.bounded 0) = .ok "P6AXH@Z".toList :=
  ⟨by decide +kernel, by decide +kernel, ⟨_, _, rfl, rfl, rfl, by decide +kernel⟩,
    ⟨_, _, rfl, rfl, rfl, by decide +kernel⟩⟩

end LinkName
