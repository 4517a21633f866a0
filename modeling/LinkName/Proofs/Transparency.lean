import LinkName.Proofs.Itanium.Transparency
import LinkName.Naming

/-!
Substitution read backwards. A name in which every back reference is replaced by what it stands for
is the name that an encoder without a table gives, unless a scope is written before a back reference
that stands for it as well. That happens where a type names a specialization in a scope, and its
template is known already; a member of a specialization leaves its scope to a known template.
-/
namespace LinkName.Itanium

/-- What a computation writes without a table from where a session has ended; nothing if it
fails. -/
def writtenFrom {graph : Graph} (session : Session graph (Table Component))
    (computation : Encoder graph (List Token)) : List Token :=
  match computation.run { session with tables := Table.bounded 0 } with
  | .ok tokens _ => tokens
  | .error _ _ => []

namespace Component

variable {graph : Graph}

/-- What the slot of a component is short for. A symbol is its full scope, or its complete name where
it stands alone. -/
def spell (machine : Target) (session : Session graph (Table Component)) :
    Standing → Component → List Token
  | .alone, .symbol id =>
    writtenFrom session (mention (encoding machine (Encoder.depthBound graph)) id)
  | .leading, .symbol id | .following, .symbol id =>
    writtenFrom session ((encoding machine (Encoder.depthBound graph)).scope id)
  | _, .type id => writtenFrom session ((encoding machine (Encoder.depthBound graph)).type id .nested)
  | _, .unnamed => []

/-- Whether the component is a symbol in a scope. -/
def isEnclosed (graph : Graph) : Component → Bool
  | .symbol id => (graph.level id).toOption.any (·.scope.isSome)
  | _ => false

end Component

section

variable {graph : Graph} {session : Session graph (Table Component)}

theorem writtenFrom_eq {computation : Encoder graph (List Token)} {script : Script}
    (sound : session.overlay.Sound) (follows : Follows session.overlay computation script) :
    writtenFrom session computation = script.inFull := by
  have agrees := follows { session with tables := Table.bounded 0 } (Table.bounded 0) le_rfl sound
    ⟨rfl, .nil⟩
  rw [StateT.run, Script.run_of_full_table] at agrees
  unfold writtenFrom Script.inFull
  revert agrees
  cases computation.run { session with tables := Table.bounded 0 } <;> cases script.full <;>
    intro agrees <;> cases agrees <;> rfl

variable (formed : graph.WellFormed) (order : graph.Order) (machine : Target)
include formed

/-- A component and its key are short for the same tokens. -/
theorem Reads.spell_eq (sound : session.overlay.Sound) {component : Component} {key : Key}
    (reads : Reads session.overlay component key)
    (below : key.Below order (Encoder.depthBound graph)) (standing : Standing) :
    component.spell machine session standing = key.spell order machine standing := by
  have follows := followsPlan_within formed machine (Encoder.depthBound graph)
  cases reads with
  | symbol id =>
      obtain ⟨held, deep⟩ := below
      have heldItem : (LinkName.Item.scope id : Item).Held graph := held
      have scope : writtenFrom session ((encoding machine (Encoder.depthBound graph)).scope id) =
          (Plan.settled order machine (.scope id)).inFull := by
        rw [writtenFrom_eq sound (follows.scope id held _),
          Plan.within_eq_settled formed order heldItem deep]
      have name : writtenFrom session (mention (encoding machine (Encoder.depthBound graph)) id) =
          (Plan.mention graph (Plan.settled order machine) id).inFull := by
        rw [writtenFrom_eq sound (follows.mention formed held)]
        refine congrArg Script.inFull (Plan.mention_congr formed held fun part listed => ?_)
        obtain ⟨heldPart, less⟩ := Item.below_ofMention formed order id part listed
        exact Plan.within_eq_settled formed order heldPart (less.trans deep)
      cases standing with
      | alone => exact name
      | leading | following => exact scope
  | @type id tree unfolds =>
      have heldItem : (LinkName.Item.type tree .nested : Item).Held graph := below.1
      have type : writtenFrom session
          ((encoding machine (Encoder.depthBound graph)).type id .nested) =
            (Plan.settled order machine (.type tree .nested)).inFull := by
        rw [writtenFrom_eq sound (follows.type _ id tree .nested unfolds),
          Plan.within_eq_settled formed order heldItem below.2]
      cases standing <;> exact type
  | unnamed => cases standing <;> rfl

end

/-! ## Whole names -/

section

variable {graph : Graph}

/-- The tokens of a name with every back reference replaced by what it stands for. -/
def spelledOut (machine : Target) (session : Session graph (Table Component)) (tokens : List Token) :
    List Token :=
  expand (fun standing => atSlot session.tables.entries (Component.spell machine session standing))
    [.alone] tokens

/-- Whether a scope is written before a back reference that stands for it as well. -/
def scopeRepeated (session : Session graph (Table Component)) (tokens : List Token) : Bool :=
  repeatsScope (atSlot session.tables.entries (Component.isEnclosed graph)) [.alone] tokens

theorem atSlot_congr {κ κ' α : Type} [Inhabited α] {relates : κ → κ' → Prop} {entries : List κ}
    {entries' : List κ'} (related : List.Forall₂ relates entries entries') {read : κ → α}
    {read' : κ' → α}
    (same : ∀ key key', key' ∈ entries' → relates key key' → read key = read' key') :
    atSlot entries read = atSlot entries' read' := by
  funext slot
  induction related generalizing slot with
  | nil => rfl
  | @cons first first' rest rest' head _ ih =>
      cases slot with
      | zero => exact same first first' List.mem_cons_self head
      | succ slot =>
          exact ih (fun key key' listed => same key key' (List.mem_cons_of_mem _ listed)) slot

theorem Reads.isEnclosed_eq {overlay : Overlay graph} {component : Component} {key : Key}
    (reads : Reads overlay component key) :
    component.isEnclosed graph = key.isEnclosed graph := by
  cases reads <;> rfl

end

end LinkName.Itanium

namespace LinkName

/-- A name with its back references spelled out is the name that no table has shortened exactly
where no scope is repeated, and none is repeated where types name members of specializations. -/
theorem spelledOut_eq_iff {graph : Graph} (built : graph.Built)
    (general : graph.SpecializesTemplates) (types : graph.SpecializationsHoldTypes)
    (classes : graph.ClassesMutable) (target : Target) {id : SymbolId}
    (held : graph.Holds (.symbol id)) {text : String}
    (named : Itanium.nameFor graph target id = .ok text) :
    ∃ tokens session full,
      (Itanium.encode target id : Itanium.Encoder graph _).run
          { tables := Table.unbounded } = .ok tokens session ∧
      text = String.ofList (Itanium.Token.write tokens) ∧
      Encoder.outcome (Itanium.encode target id : Itanium.Encoder graph _)
          (Table.bounded 0) = .ok full ∧
      (Itanium.Token.write (Itanium.spelledOut target session tokens) =
          Itanium.Token.write full ↔ Itanium.scopeRepeated session tokens = false) ∧
      (graph.NamesMembers → Itanium.scopeRepeated session tokens = false) := by
  have formed := built.wellFormed
  have order := formed.order
  have proper : graph.ProperTemplates := ⟨built.sound.copies, general, types.templatesApart⟩
  have deep : 8 * order.rank (.symbol id) ≤ Encoder.depthBound graph := by
    have bound := order.rank_lt _ held
    unfold Encoder.depthBound
    omega
  have agrees := Itanium.follows_encode formed target held {} { tables := Table.unbounded }
    Table.unbounded le_rfl (Overlay.sound_empty formed) ⟨rfl, .nil⟩
  rw [Itanium.Plan.declaration_settled formed order held deep] at agrees
  unfold Itanium.nameFor Itanium.name Encoder.outcome at named
  generalize reached : (Itanium.encode target id : Itanium.Encoder graph _).run
    { tables := Table.unbounded } = result at agrees named
  generalize ran : StateT.run (Itanium.Script.run _) Table.unbounded = course at agrees
  cases agrees with
  | error => cases named
  | @ok tokens session last grown sound related =>
      cases named
      obtain ⟨full, whole, exact, clear⟩ := Itanium.Plan.declaration_transparent formed proper types
        classes ran
      have below : ∀ key ∈ last.entries, key.Below order (Encoder.depthBound graph) := by
        intro key listed
        have stored := (Itanium.Script.mem_of_run _ ran listed).resolve_left List.not_mem_nil
        exact (Itanium.Plan.declaration_within formed order id key stored).mono deep
      have spelled (standing : Itanium.Standing) := Itanium.atSlot_congr related.2
        fun component key listed (reads : Itanium.Reads session.overlay component key) =>
          reads.spell_eq formed order target sound (below key listed) standing
      have enclosed := Itanium.atSlot_congr related.2
        fun component key _ (reads : Itanium.Reads session.overlay component key) =>
          reads.isEnclosed_eq
      refine ⟨tokens, session, full, rfl, rfl, ?_, ?_, ?_⟩
      · have limited := Itanium.outcome_eq_run formed order target held (some 0)
        have reference := Itanium.Script.run_of_full_table
          ((Itanium.Plan.settled order target).declaration graph target id)
        rw [whole] at reference
        exact limited.trans (congrArg (Functor.map Prod.fst) reference)
      · simpa only [Itanium.spelledOut, Itanium.scopeRepeated, spelled, enclosed] using exact
      · simpa only [Itanium.scopeRepeated, enclosed] using clear

/-- A function whose two parameters are types of `first` and `second`, beside two specializations of
a template in a namespace and their members. -/
def boxes (first second : SymbolId) : Graph where
  symbols :=
    [{ ident := "app", sort := .moduleScope },
      { ident := "geo", parent := some ⟨0⟩, sort := .namespaceScope },
      { ident := "Box", parent := some ⟨1⟩, sort := .template none },
      { ident := "Box", parent := some ⟨1⟩, sort := .specialization ⟨2⟩ [.type ⟨0⟩] },
      { ident := "Box", parent := some ⟨1⟩, sort := .specialization ⟨2⟩ [.type ⟨1⟩] },
      { ident := "Box", parent := some ⟨3⟩, sort := .record .struct },
      { ident := "Box", parent := some ⟨4⟩, sort := .record .struct },
      { ident := "pack", parent := some ⟨0⟩, sort := .function { type := ⟨5⟩ } }]
  types :=
    [{ form := .basic .int32 }, { form := .basic .char }, { form := .basic .void },
      { form := .record first }, { form := .record second },
      { form := .function { result := ⟨2⟩, params := [{ type := ⟨3⟩ }, { type := ⟨4⟩ }] } }]

/-- How `boxes` is built. -/
def boxesSteps (first second : SymbolId) : List Graph.Step :=
  [.symbol { ident := "app", sort := .moduleScope },
    .symbol { ident := "geo", parent := some ⟨0⟩, sort := .namespaceScope },
    .symbol { ident := "Box", parent := some ⟨1⟩, sort := .template none },
    .type { form := .basic .int32 }, .type { form := .basic .char }, .type { form := .basic .void },
    .specialization ⟨2⟩ [.type ⟨0⟩], .specialization ⟨2⟩ [.type ⟨1⟩],
    .symbol { ident := "Box", parent := some ⟨3⟩, sort := .record .struct },
    .symbol { ident := "Box", parent := some ⟨4⟩, sort := .record .struct },
    .type { form := .record first }, .type { form := .record second },
    .type { form := .function { result := ⟨2⟩, params := [{ type := ⟨3⟩ }, { type := ⟨4⟩ }] } },
    .symbol { ident := "pack", parent := some ⟨0⟩, sort := .function { type := ⟨5⟩ } }]

section

variable (first second : SymbolId)

theorem boxes_specializesTemplates : (boxes first second).SpecializesTemplates := by
  rintro ⟨_ | _ | _ | _ | _ | _ | _ | _ | index⟩ symbol template stored special <;> cases stored <;>
    cases special <;> exact ⟨_, none, rfl, rfl⟩

theorem boxes_specializationsHoldTypes : (boxes first second).SpecializationsHoldTypes := by
  rintro ⟨_ | _ | _ | _ | _ | _ | _ | _ | index⟩ symbol parent outer stored inside known special <;>
    cases stored <;> cases inside <;> cases known <;> first | exact .inl ⟨_, rfl⟩ | cases special

theorem boxes_classesMutable : (boxes first second).ClassesMutable := by
  rintro ⟨_ | _ | _ | _ | _ | _ | index⟩ symbol quals stored <;> cases stored

end

theorem boxes_namesMembers : (boxes ⟨5⟩ ⟨6⟩).NamesMembers := by
  rintro ⟨_ | _ | _ | _ | _ | _ | index⟩ node symbol stored named found known special <;>
    cases stored <;> cases named <;> cases known <;> cases special

/-- Types that name members leave the namespace to the template. -/
theorem spelledOut_boxes_members :
    Itanium.nameFor (boxes ⟨5⟩ ⟨6⟩) .itanium64 ⟨7⟩ = .ok "_Z4packN3geo3BoxIiEENS0_IcEE" ∧
      ∃ tokens session full,
        (Itanium.encode Target.itanium64 ⟨7⟩ : Itanium.Encoder (boxes ⟨5⟩ ⟨6⟩) _).run
            { tables := Table.unbounded } = .ok tokens session ∧
          Encoder.outcome (Itanium.encode Target.itanium64 ⟨7⟩ :
            Itanium.Encoder (boxes ⟨5⟩ ⟨6⟩) _) (Table.bounded 0) = .ok full ∧
          Itanium.Token.write (Itanium.spelledOut Target.itanium64 session tokens) =
            Itanium.Token.write full := by
  have named : Itanium.nameFor (boxes ⟨5⟩ ⟨6⟩) .itanium64 ⟨7⟩ =
      .ok "_Z4packN3geo3BoxIiEENS0_IcEE" := by decide +kernel
  obtain ⟨tokens, session, full, ran, -, reference, exact, clear⟩ :=
    spelledOut_eq_iff (Graph.built_of_takeAll? (boxesSteps ⟨5⟩ ⟨6⟩) rfl)
      (boxes_specializesTemplates ⟨5⟩ ⟨6⟩) (boxes_specializationsHoldTypes ⟨5⟩ ⟨6⟩)
      (boxes_classesMutable ⟨5⟩ ⟨6⟩) .itanium64
      (show (boxes ⟨5⟩ ⟨6⟩).Holds (.symbol ⟨7⟩) by decide) named
  exact ⟨named, tokens, session, full, ran, reference, exact.mpr (clear boxes_namesMembers)⟩

/-- Types that name the specializations themselves have the namespace written twice. -/
theorem spelledOut_boxes_ne :
    (boxes ⟨3⟩ ⟨4⟩).Built ∧ (boxes ⟨3⟩ ⟨4⟩).SpecializesTemplates ∧
      (boxes ⟨3⟩ ⟨4⟩).SpecializationsHoldTypes ∧ (boxes ⟨3⟩ ⟨4⟩).ClassesMutable ∧
      ∃ tokens session full,
        (Itanium.encode Target.itanium64 ⟨7⟩ : Itanium.Encoder (boxes ⟨3⟩ ⟨4⟩) _).run
            { tables := Table.unbounded } = .ok tokens session ∧
          Itanium.Token.write tokens = "_Z4packN3geo3BoxIiEENS_S0_IcEE".toList ∧
          Encoder.outcome (Itanium.encode Target.itanium64 ⟨7⟩ :
            Itanium.Encoder (boxes ⟨3⟩ ⟨4⟩) _) (Table.bounded 0) = .ok full ∧
          Itanium.Token.write full = "_Z4packN3geo3BoxIiEEN3geo3BoxIcEE".toList ∧
          Itanium.Token.write (Itanium.spelledOut Target.itanium64 session tokens) ≠
            Itanium.Token.write full := by
  refine ⟨Graph.built_of_takeAll? (boxesSteps ⟨3⟩ ⟨4⟩) rfl, boxes_specializesTemplates ⟨3⟩ ⟨4⟩,
    boxes_specializationsHoldTypes ⟨3⟩ ⟨4⟩, boxes_classesMutable ⟨3⟩ ⟨4⟩, _, _, _, rfl, ?_, rfl,
    ?_, ?_⟩
  · decide +kernel
  · decide +kernel
  · decide +kernel

end LinkName
