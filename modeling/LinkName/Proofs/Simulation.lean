import LinkName.Encoder
import LinkName.Proofs.Graph.Scope
import LinkName.Proofs.Type.Spelling

/-!
Names without handles. A course does what an encoder does, but has types at hand as trees: it reads
no graph and derives nothing, and is left with its tables and its refusals. An encoder follows a
course if both come to the same end from every overlay that holds what the encoder was given.
-/
namespace LinkName

/-- Where a run has stopped. -/
def stop {σ α : Type} : EStateM.Result Refusal σ α → σ
  | .ok _ state | .error _ state => state

abbrev Course (τ : Type) : Type → Type := StateT τ (Except Refusal)

/-- How the tables of a course are related to those of an encoder, which know types by handle. -/
structure Reading (graph : Graph) (τ τ' : Type) where
  relates : Overlay graph → τ → τ' → Prop
  mono : ∀ {overlay later tables tables'}, overlay ≤ later →
    relates overlay tables tables' → relates later tables tables'

section

variable {graph : Graph} {τ τ' α β : Type} (reading : Reading graph τ τ')

/-- Both ended with the same value, or both with the same refusal. -/
inductive Agrees (overlay : Overlay graph) :
    EStateM.Result Refusal (Session graph τ) α → Except Refusal (α × τ') → Prop where
  | ok {value : α} {session : Session graph τ} {tables : τ'} (grown : overlay ≤ session.overlay)
      (sound : session.overlay.Sound) (related : reading.relates session.overlay session.tables tables) :
      Agrees overlay (.ok value session) (.ok (value, tables))
  | error {refusal : Refusal} {session : Session graph τ} :
      Agrees overlay (.error refusal session) (.error refusal)

def Follows (base : Overlay graph) (computation : Encoder graph τ α) (course : Course τ' α) :
    Prop :=
  ∀ session tables, base ≤ session.overlay → session.overlay.Sound →
    reading.relates session.overlay session.tables tables →
      Agrees reading session.overlay (computation.run session) (course.run tables)

end

namespace Encoder

variable {graph : Graph} {τ α : Type} {id : TypeId} {session : Session graph τ}

/-- The outcome of a computation where some types have been derived before. -/
def outcomeFrom (overlay : Overlay graph) (computation : Encoder graph τ α) (tables : τ) :
    Except Refusal α :=
  match computation.run { overlay, tables } with
  | .ok value _ => .ok value
  | .error refusal _ => .error refusal

theorem outcomeFrom_empty (computation : Encoder graph τ α) (tables : τ) :
    outcomeFrom {} computation tables = outcome computation tables := by
  unfold outcomeFrom outcome
  cases computation.run { tables } <;> rfl

theorem run_type_bind {node : TypeNode} {next : TypeNode → Encoder graph τ α}
    (found : session.overlay.type id = .ok node) :
    (type id >>= next).run session = (next node).run session := by
  have read : (type id >>= next).run session =
      (ofExcept (session.overlay.type id) >>= next).run session := rfl
  rw [read, found, ofExcept, pure_bind]

/-- What an entity needs fits within the depth bound. -/
theorem rank_le_depthBound (order : graph.Order) {entity : Entity} (held : graph.Holds entity) :
    8 * order.rank entity ≤ depthBound graph := by
  have bound := order.rank_lt entity held
  unfold depthBound
  omega

theorem run_refuseType (reason : TypeReason) :
    (refuseType id reason : Encoder graph τ α).run session =
      (ofExcept (session.overlay.spellType id) >>= fun text =>
        throw (.type text reason) : Encoder graph τ α).run session := rfl

/-! ## Runs that come to an end -/

section

variable {β : Type} {last : Session graph τ}

theorem run_bind_eq_ok {computation : Encoder graph τ α} {next : α → Encoder graph τ β} {value : β}
    (ran : (computation >>= next).run session = .ok value last) :
    ∃ first middle, computation.run session = .ok first middle ∧
      (next first).run middle = .ok value last := by
  simp only [EStateM.run, Bind.bind, EStateM.bind] at ran ⊢
  cases begun : computation session with
  | error refusal ended => simp [begun] at ran
  | ok first middle =>
      rw [begun] at ran
      exact ⟨first, middle, rfl, ran⟩

theorem run_pure_eq_ok {value value' : α}
    (ran : (Pure.pure value : Encoder graph τ α).run session = .ok value' last) :
    value' = value ∧ last = session := by
  cases ran
  exact ⟨rfl, rfl⟩

theorem run_ofExcept_eq_ok {found : Except Fault α} {value : α}
    (ran : (ofExcept found : Encoder graph τ α).run session = .ok value last) :
    found = .ok value ∧ last = session := by
  cases found with
  | error fault => cases ran
  | ok other =>
      cases ran
      exact ⟨rfl, rfl⟩

theorem run_demand_eq_ok {condition : Bool} {refusal : Encoder graph τ Unit}
    (refuses : ∀ last, refusal.run session ≠ .ok () last)
    (ran : (demand condition refusal).run session = .ok () last) :
    condition = true ∧ last = session := by
  cases condition with
  | true =>
      cases ran
      exact ⟨rfl, rfl⟩
  | false => exact absurd ran (refuses last)

theorem run_refuseStorage_ne (id : SymbolId) (value : α) :
    (refuseStorage id : Encoder graph τ α).run session ≠ .ok value last := by
  intro ran
  obtain ⟨text, middle, -, thrown⟩ := run_bind_eq_ok ran
  cases thrown

theorem run_refuseType_ne (reason : TypeReason) (value : α) :
    (refuseType id reason : Encoder graph τ α).run session ≠ .ok value last := by
  rw [run_refuseType]
  intro ran
  obtain ⟨text, middle, -, thrown⟩ := run_bind_eq_ok ran
  cases thrown

end

end Encoder

namespace Follows

variable {graph : Graph} {τ τ' α β : Type} {reading : Reading graph τ τ'} {base : Overlay graph}
variable {computation : Encoder graph τ α} {course : Course τ' α}

theorem pure (value : α) :
    Follows reading base (Pure.pure value : Encoder graph τ α) (Pure.pure value) :=
  fun _ _ _ sound related => .ok le_rfl sound related

theorem throw (refusal : Refusal) :
    Follows reading base (MonadExcept.throw refusal : Encoder graph τ α)
      (MonadExcept.throw refusal) :=
  fun _ _ _ _ _ => .error

theorem mono {later : Overlay graph} (follows : Follows reading base computation course)
    (grown : base ≤ later) : Follows reading later computation course :=
  fun session tables within => follows session tables (grown.trans within)

/-- Only overlays in a sound state are met. -/
theorem of_sound
    (follows : ∀ later, base ≤ later → later.Sound → Follows reading later computation course) :
    Follows reading base computation course :=
  fun session tables within sound related =>
    follows session.overlay within sound session tables le_rfl sound related

theorem bind {next : α → Encoder graph τ β} {next' : α → Course τ' β}
    (first : Follows reading base computation course)
    (rest : ∀ later value, base ≤ later → Follows reading later (next value) (next' value)) :
    Follows reading base (computation >>= next) (course >>= next') := by
  intro session tables within sound related
  have agrees := first session tables within sound related
  simp only [EStateM.run, StateT.run, Bind.bind, EStateM.bind, StateT.bind, Except.bind] at agrees ⊢
  revert agrees
  cases computation session <;> cases course tables <;> intro agrees <;> cases agrees
  case ok.ok value session tables grown sound related =>
    have after := rest session.overlay value (within.trans grown) session tables le_rfl sound related
    revert after
    simp only [EStateM.run, StateT.run]
    cases next value session <;> cases next' value tables <;> intro after <;> cases after
    case ok.ok further sound related => exact .ok (grown.trans further) sound related
    case error.error => exact .error
  case error.error => exact .error

theorem map (first : Follows reading base computation course) (change : α → β) :
    Follows reading base (computation >>= fun value => Pure.pure (change value))
      (course >>= fun value => Pure.pure (change value)) :=
  first.bind fun _ value _ => .pure (change value)

/-- Steps that the course does not have. -/
theorem derive_bind {step : Overlay graph → TypeId × Overlay graph} {tree : TypeTree}
    {next : TypeId → Encoder graph τ α}
    (derives : ∀ overlay, base ≤ overlay → overlay.Sound → overlay.Derives (step overlay) tree)
    (rest : ∀ later id, base ≤ later → later.Unfolds id tree →
      Follows reading later (next id) course) :
    Follows reading base (Encoder.derive step >>= next) course := by
  intro session tables within sound related
  have derived := derives session.overlay within sound
  have later := rest _ _ (within.trans derived.grown) derived.unfolds
    { session with overlay := (step session.overlay).2 } tables le_rfl derived.sound
    (reading.mono derived.grown related)
  have run : (Encoder.derive step >>= next).run session =
      (next (step session.overlay).1).run { session with overlay := (step session.overlay).2 } :=
    rfl
  rw [run]
  revert later
  cases (next (step session.overlay).1).run { session with overlay := (step session.overlay).2 } <;>
    cases course.run tables <;> intro later <;> cases later
  case ok.ok grown sound related => exact .ok (derived.grown.trans grown) sound related
  case error.error => exact .error

theorem type_bind {id : TypeId} {node : TypeNode} {next : TypeNode → Encoder graph τ α}
    (found : base.type id = .ok node) (rest : Follows reading base (next node) course) :
    Follows reading base (Encoder.type id >>= next) course := by
  intro session tables within sound related
  rw [Encoder.run_type_bind (Overlay.type_mono within found)]
  exact rest session tables within sound related

end Follows

namespace Course

variable {τ α β : Type}

/-- What each element is written as, one after the other. -/
def concat (write : α → Course τ (List β)) : List α → Course τ (List β)
  | [] => return []
  | first :: rest => return (← write first) ++ (← concat write rest)

variable {course : Course τ α} {next : α → Course τ β} {tables last : τ}

/-- A run that comes to an end has come through its first part. -/
theorem run_bind_eq_ok {value : β} (ran : (course >>= next).run tables = .ok (value, last)) :
    ∃ first middle, course.run tables = .ok (first, middle) ∧
      (next first).run middle = .ok (value, last) := by
  rw [StateT.run_bind] at ran
  cases begun : course.run tables with
  | error refusal =>
      rw [begun] at ran
      cases ran
  | ok reached =>
      rw [begun] at ran
      exact ⟨reached.1, reached.2, rfl, ran⟩

theorem run_bind_of_ok {first : α} {middle : τ} (begun : course.run tables = .ok (first, middle)) :
    (course >>= next).run tables = (next first).run middle := by
  rw [StateT.run_bind, begun]
  rfl

end Course

/-! ## The steps of an encoder -/

namespace Encoder

variable {graph : Graph} {τ α : Type} {id : SymbolId}

theorem symbol_eq_pure {found : Symbol} (stored : graph.symbol id = .ok found) :
    (symbol id : Encoder graph τ Symbol) = pure found := by
  rw [symbol, stored, ofExcept]

theorem scopeParent_eq_pure {scope : Option SymbolId} (found : graph.scopeParent id = .ok scope) :
    (scopeParent id : Encoder graph τ (Option SymbolId)) = pure scope := by
  rw [scopeParent, found, ofExcept]

theorem spellSymbol_eq_pure (formed : graph.WellFormed) (held : graph.Holds (.symbol id)) :
    (ofExcept (graph.spellSymbol id) : Encoder graph τ String) = pure (graph.text id) := by
  rw [Graph.spellSymbol, (Overlay.sound_empty formed).spellSymbol_eq_ok formed held, ofExcept]

theorem refuseSymbol_eq_throw (formed : graph.WellFormed) {found : Symbol}
    (stored : graph.symbol id = .ok found) :
    (refuseSymbol id : Encoder graph τ α) =
      throw (.symbolKind (graph.text id) found.sort.describe) := by
  rw [refuseSymbol, spellSymbol_eq_pure formed (Graph.holds_symbol_iff.mpr ⟨found, stored⟩),
    symbol_eq_pure stored]
  simp

theorem refuseStorage_eq_throw (formed : graph.WellFormed) (held : graph.Holds (.symbol id)) :
    (refuseStorage id : Encoder graph τ α) = throw (.storageClass (graph.text id)) := by
  rw [refuseStorage, spellSymbol_eq_pure formed held]
  simp

end Encoder

namespace Follows

variable {graph : Graph} {τ τ' α β : Type} {reading : Reading graph τ τ'} {base : Overlay graph}
variable {course : Course τ' α} {id : TypeId} {tree : TypeTree}

theorem concat {write : α → Encoder graph τ (List β)} {write' : α → Course τ' (List β)}
    {list : List α} (each : ∀ element ∈ list, Follows reading base (write element) (write' element)) :
    Follows reading base (Encoder.concat write list) (Course.concat write' list) := by
  induction list generalizing base with
  | nil => exact .pure []
  | cons first rest ih =>
      have rest := ih fun element listed => each element (List.mem_cons_of_mem _ listed)
      exact (each first List.mem_cons_self).bind fun later value grown =>
        (rest.mono grown).bind fun later value _ => .pure _

theorem refuseType (formed : graph.WellFormed) (unfolds : base.Unfolds id tree)
    (reason : TypeReason) :
    Follows reading base (Encoder.refuseType id reason : Encoder graph τ α)
      (MonadExcept.throw (.type (tree.spell graph.text) reason)) := by
  intro session tables within sound related
  have run : (Encoder.refuseType id reason : Encoder graph τ α).run session =
      .error (.type (tree.spell graph.text) reason) session := by
    rw [Encoder.run_refuseType, sound.spellType_eq_ok formed (unfolds.mono within)]
    rfl
  rw [run]
  exact .error

theorem refuseArgument (formed : graph.WellFormed) {owner : SymbolId} {arg : TemplateArg}
    (heldOwner : graph.Holds (.symbol owner)) (heldArg : ∀ entity ∈ arg.named?, graph.Holds entity)
    (reason : ArgumentReason) :
    Follows reading base (Encoder.refuseArgument owner arg reason : Encoder graph τ α)
      (MonadExcept.throw (.argument (graph.text owner) (graph.argumentText graph.text arg)
        reason)) := by
  intro session tables within sound related
  have run : (Encoder.refuseArgument owner arg reason : Encoder graph τ α).run session =
      .error (.argument (graph.text owner) (graph.argumentText graph.text arg) reason) session := by
    have read : (Encoder.refuseArgument owner arg reason : Encoder graph τ α).run session =
        (Encoder.ofExcept (session.overlay.spellSymbol owner) >>= fun text =>
          Encoder.ofExcept (session.overlay.spellArgument arg) >>= fun spelled =>
            MonadExcept.throw (.argument text spelled reason) : Encoder graph τ α).run session := rfl
    rw [read, sound.spellSymbol_eq_ok formed heldOwner, sound.spellArgument_eq_ok formed heldArg]
    rfl
  rw [run]
  exact .error

/-- Nothing comes after a refusal. -/
theorem refuse_bind {refusal : Encoder graph τ β} {reason : Refusal}
    {next : β → Encoder graph τ α}
    (refused : Follows reading base refusal (MonadExcept.throw reason)) :
    Follows reading base (refusal >>= next) (MonadExcept.throw reason) := by
  intro session tables within sound related
  have agrees := refused session tables within sound related
  simp only [EStateM.run, Bind.bind, EStateM.bind] at agrees ⊢
  revert agrees
  cases refusal session <;> intro agrees <;> cases agrees
  exact .error

/-- A demand that is not met ends the course. -/
theorem demand_bind {condition : Bool} {refusal : Encoder graph τ Unit} {reason : Refusal}
    {next : Unit → Encoder graph τ α}
    (refused : Follows reading base refusal (MonadExcept.throw reason))
    (rest : Follows reading base (next ()) course) :
    Follows reading base (Encoder.demand condition refusal >>= next)
      (if condition then course else MonadExcept.throw reason) := by
  cases condition with
  | true => simpa [Encoder.demand] using rest
  | false => simpa [Encoder.demand] using refused.refuse_bind

theorem mutableOf_bind (formed : graph.WellFormed) {next : TypeId → Encoder graph τ α}
    (unfolds : base.Unfolds id tree)
    (rest : ∀ later other, base ≤ later → later.Unfolds other tree.mutable →
      Follows reading later (next other) course) :
    Follows reading base (Encoder.mutableOf id >>= next) course := by
  obtain ⟨node, part, found, -, -⟩ := unfolds.found
  rw [Encoder.mutableOf, bind_assoc]
  exact type_bind found (derive_bind (fun overlay within sound =>
    sound.derives_mutable formed (unfolds.mono within) (Overlay.type_mono within found)) rest)

theorem returned_bind {signature : Signature} {next : TypeId → Encoder graph τ α}
    (unfolds : base.Unfolds signature.result tree)
    (rest : ∀ later other, base ≤ later →
      later.Unfolds other (TypeTree.returned signature.convention tree) →
        Follows reading later (next other) course) :
    Follows reading base (Encoder.derive (·.returned signature) >>= next) course :=
  derive_bind (fun _ within sound => sound.derives_returned (unfolds.mono within)) rest

theorem passed_bind (formed : graph.WellFormed) {param : Param}
    {next : TypeId → Encoder graph τ α} (unfolds : base.Unfolds param.type tree)
    (rest : ∀ later other, base ≤ later →
      later.Unfolds other (TypeTree.passed (param.passing, tree)) →
        Follows reading later (next other) course) :
    Follows reading base (Encoder.passed param >>= next)
      (if (TypeTree.passed (param.passing, tree)).isStaticArray then
        MonadExcept.throw
          (.type ((TypeTree.passed (param.passing, tree)).spell graph.text) .arrayByValue)
      else course) := by
  rw [Encoder.passed, bind_assoc]
  refine derive_bind (fun _ within sound => sound.derives_passed (unfolds.mono within))
    fun later other grown unfolded => ?_
  obtain ⟨node, part, found, same, -⟩ := unfolded.found
  rw [bind_assoc]
  refine type_bind found ?_
  rw [bind_assoc, same, TypeNode.isStaticArray_tree, ← same]
  have passed : Follows reading later
      (Encoder.demand (!node.form.isStaticArray) (Encoder.refuseType other .arrayByValue) >>=
        fun _ => next other) _ :=
    demand_bind (refuseType formed unfolded .arrayByValue) (rest later other grown unfolded)
  cases array : node.form.isStaticArray <;> simpa [array] using passed

theorem shape_bind (formed : graph.WellFormed) {next : List Nat × TypeId → Encoder graph τ α}
    (unfolds : base.Unfolds id tree)
    (rest : ∀ later element, base ≤ later → later.Unfolds element tree.shape.2 →
      Follows reading later (next (tree.shape.1, element)) course) :
    Follows reading base
      (get >>= fun session => Encoder.ofExcept (session.overlay.shape id) >>= next) course := by
  intro session tables within sound related
  obtain ⟨element, shaped, unfolded⟩ := sound.shape formed (unfolds.mono within)
  have run : (get >>= fun session => Encoder.ofExcept (session.overlay.shape id) >>= next).run
      session = (next (tree.shape.1, element)).run session := by
    have read : (get >>= fun session => Encoder.ofExcept (session.overlay.shape id) >>= next).run
        session = (Encoder.ofExcept (session.overlay.shape id) >>= next).run session := rfl
    rw [read, shaped, Encoder.ofExcept, pure_bind]
  rw [run]
  exact rest session.overlay element within unfolded session tables le_rfl sound related

/-- A function has a signature; nothing else has. -/
theorem signature_bind {next : Signature → Encoder graph τ α} {node : TypeNode}
    {signature : Signature} (found : base.type id = .ok node)
    (form : node.form = .function signature) (rest : Follows reading base (next signature) course) :
    Follows reading base (Encoder.signature id >>= next) course := by
  rw [Encoder.signature, bind_assoc]
  refine type_bind found ?_
  simpa [form] using rest

theorem signature_refused (formed : graph.WellFormed) {next : Signature → Encoder graph τ α}
    {node : TypeNode} (unfolds : base.Unfolds id tree) (found : base.type id = .ok node)
    (form : ∀ signature, node.form ≠ .function signature) :
    Follows reading base (Encoder.signature id >>= next)
      (MonadExcept.throw (.type (tree.spell graph.text) .notFunction)) := by
  rw [Encoder.signature, bind_assoc]
  refine type_bind found ?_
  split
  · next signature same => exact absurd same (form signature)
  · exact refuse_bind (refuseType formed unfolds .notFunction)

theorem outcomeFrom {overlay : Overlay graph} {computation : Encoder graph τ α} {tables : τ}
    {tables' : τ'} (follows : Follows reading overlay computation course) (sound : overlay.Sound)
    (related : reading.relates overlay tables tables') :
    Encoder.outcomeFrom overlay computation tables = Prod.fst <$> course.run tables' := by
  have agrees := follows { overlay, tables } tables' le_rfl sound related
  unfold Encoder.outcomeFrom
  revert agrees
  cases computation.run { overlay, tables } <;> cases course.run tables' <;> intro agrees <;>
    cases agrees <;> rfl

theorem outcome {computation : Encoder graph τ α} {tables : τ} {tables' : τ'}
    (follows : Follows reading {} computation course) (formed : graph.WellFormed)
    (related : reading.relates {} tables tables') :
    Encoder.outcome computation tables = Prod.fst <$> course.run tables' :=
  (Encoder.outcomeFrom_empty computation tables).symm.trans
    (follows.outcomeFrom (Overlay.sound_empty formed) related)

end Follows

end LinkName
