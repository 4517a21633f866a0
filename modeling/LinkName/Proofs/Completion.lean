import LinkName.Proofs.Simulation
import LinkName.Proofs.Type.Derivation

/-!
How the making of a name ends. A computation ends well if it returns a value of which its promise
holds, or is refused with a diagnosis: no handle has led nowhere, and nothing has gone on without
end. Wherever it stops, the session is in a state that a run can be led on from. There is one rule
for each step that a computation can take.
-/
namespace LinkName

/-- The refusal tells what is wrong with a declaration, and not with the graph. -/
def Refusal.IsDiagnosis (refusal : Refusal) : Prop := ∀ fault, refusal ≠ .malformed fault

/-- What a family keeps to: which tables it has, and which tokens it writes when it has them. -/
structure Discipline (τ β : Type) where
  admits : τ → Prop
  allows : τ → β → Prop

namespace Discipline

section

variable {graph : Graph} {τ α β : Type} (discipline : Discipline τ β)

/-- The state that a session is always in. -/
structure Valid (session : Session graph τ) : Prop where
  sound : session.overlay.Sound
  modest : session.overlay.Modest
  admitted : discipline.admits session.tables

/-- A later state: types are only added, and what was allowed is still allowed. -/
structure Later (first second : Session graph τ) : Prop where
  overlay : first.overlay ≤ second.overlay
  allowed : ∀ token, discipline.allows first.tables token → discipline.allows second.tables token

/-- All tokens are allowed. -/
def Written (session : Session graph τ) (tokens : List β) : Prop :=
  ∀ token ∈ tokens, discipline.allows session.tables token

/-- How a computation that was begun in a valid session may end. -/
inductive Ended (first : Session graph τ) (promise : Session graph τ → α → Prop) :
    EStateM.Result Refusal (Session graph τ) α → Prop where
  | ok {value : α} {last : Session graph τ} (later : discipline.Later first last)
      (valid : discipline.Valid last) (kept : promise last value) :
      Ended first promise (.ok value last)
  | error {refusal : Refusal} {last : Session graph τ} (valid : discipline.Valid last)
      (diagnosis : refusal.IsDiagnosis) : Ended first promise (.error refusal last)

/-- From every valid session after `base` the computation ends well. -/
def Ends (base : Session graph τ) (computation : Encoder graph τ α)
    (promise : Session graph τ → α → Prop) : Prop :=
  ∀ session, discipline.Later base session → discipline.Valid session →
    discipline.Ended session promise (computation.run session)

/-- The computation ends with tokens that are allowed. -/
abbrev Writes (base : Session graph τ) (computation : Encoder graph τ (List β)) : Prop :=
  discipline.Ends base computation discipline.Written

end

variable {graph : Graph} {τ α β γ : Type} {discipline : Discipline τ β}

namespace Later

variable {first second third : Session graph τ}

theorem refl (session : Session graph τ) : discipline.Later session session :=
  ⟨le_rfl, fun _ => id⟩

theorem trans (later : discipline.Later first second) (further : discipline.Later second third) :
    discipline.Later first third :=
  ⟨later.overlay.trans further.overlay, fun token => further.allowed token ∘ later.allowed token⟩

end Later

namespace Written

variable {session later : Session graph τ} {tokens others : List β}

@[simp] theorem nil : discipline.Written session [] := by simp [Written]

@[simp] theorem cons_iff {token : β} : discipline.Written session (token :: tokens) ↔
    discipline.allows session.tables token ∧ discipline.Written session tokens :=
  List.forall_mem_cons

@[simp] theorem append_iff : discipline.Written session (tokens ++ others) ↔
    discipline.Written session tokens ∧ discipline.Written session others :=
  List.forall_mem_append

theorem mono (written : discipline.Written session tokens)
    (grown : discipline.Later session later) : discipline.Written later tokens :=
  fun token listed => grown.allowed token (written token listed)

end Written

namespace Ended

variable {first second : Session graph τ} {promise : Session graph τ → α → Prop}
variable {reached : EStateM.Result Refusal (Session graph τ) α}

theorem after (ended : discipline.Ended second promise reached)
    (later : discipline.Later first second) : discipline.Ended first promise reached := by
  cases ended with
  | ok further valid kept => exact .ok (later.trans further) valid kept
  | error valid diagnosis => exact .error valid diagnosis

end Ended

/-! ## Rules -/

namespace Ends

variable {base : Session graph τ} {computation : Encoder graph τ α}
variable {promise : Session graph τ → α → Prop} {result : Session graph τ → γ → Prop}

theorem pure {value : α}
    (kept : ∀ last, discipline.Later base last → discipline.Valid last → promise last value) :
    discipline.Ends base (Pure.pure value) promise :=
  fun session within valid => .ok (.refl session) valid (kept session within valid)

theorem throw {refusal : Refusal} (diagnosis : refusal.IsDiagnosis) :
    discipline.Ends base (MonadExcept.throw refusal : Encoder graph τ α) promise :=
  fun _ _ valid => .error valid diagnosis

theorem mono {later : Session graph τ} (ends : discipline.Ends base computation promise)
    (grown : discipline.Later base later) : discipline.Ends later computation promise :=
  fun session within => ends session (grown.trans within)

theorem of_valid
    (ends : ∀ later, discipline.Later base later → discipline.Valid later →
      discipline.Ends later computation promise) : discipline.Ends base computation promise :=
  fun session within valid => ends session within valid session (.refl session) valid

theorem bind {next : α → Encoder graph τ γ} (first : discipline.Ends base computation promise)
    (rest : ∀ later value, discipline.Later base later → discipline.Valid later →
      promise later value → discipline.Ends later (next value) result) :
    discipline.Ends base (computation >>= next) result := by
  intro session within valid
  have begun := first session within valid
  simp only [EStateM.run, Bind.bind, EStateM.bind] at begun ⊢
  cases ran : computation session with
  | error refusal ended =>
      rw [ran] at begun
      cases begun with
      | error valid diagnosis => exact .error valid diagnosis
  | ok value ended =>
      rw [ran] at begun
      cases begun with
      | ok later valid kept =>
          have further := rest ended value (within.trans later) valid kept ended (.refl ended) valid
          exact further.after later

theorem refuse_bind {refusal : Encoder graph τ α} {next : α → Encoder graph τ γ}
    (refused : discipline.Ends base refusal fun _ _ => False) :
    discipline.Ends base (refusal >>= next) result :=
  refused.bind fun _ _ _ _ impossible => impossible.elim

theorem demand_bind {condition : Bool} {refusal : Encoder graph τ Unit}
    {next : Unit → Encoder graph τ α} (refused : discipline.Ends base refusal fun _ _ => False)
    (rest : discipline.Ends base (next ()) promise) :
    discipline.Ends base (Encoder.demand condition refusal >>= next) promise := by
  cases condition with
  | true => simpa [Encoder.demand] using rest
  | false => simpa [Encoder.demand] using refused.refuse_bind

/-! ### Types -/

variable {id : TypeId} {tree : TypeTree} {node : TypeNode}

theorem type_bind {next : TypeNode → Encoder graph τ α} (found : base.overlay.type id = .ok node)
    (rest : discipline.Ends base (next node) promise) :
    discipline.Ends base (Encoder.type id >>= next) promise := by
  intro session within valid
  rw [Encoder.run_type_bind (Overlay.type_mono within.overlay found)]
  exact rest session within valid

/-- A derivation ends with a handle for the type that it derives. -/
theorem derive {step : Overlay graph → TypeId × Overlay graph}
    (derives : ∀ overlay, base.overlay ≤ overlay → overlay.Sound →
      overlay.Derives (step overlay) tree)
    (modest : ∀ overlay : Overlay graph, overlay.Modest → (step overlay).2.Modest) :
    discipline.Ends base (Encoder.derive step) fun last id => last.overlay.Unfolds id tree := by
  intro session within valid
  have derived := derives session.overlay within.overlay valid.sound
  have kept := modest session.overlay valid.modest
  exact .ok ⟨derived.grown, fun _ allowed => allowed⟩ ⟨derived.sound, kept, valid.admitted⟩
    derived.unfolds

theorem returned {signature : Signature} (held : graph.Holds (.type signature.result))
    (unfolds : base.overlay.Unfolds signature.result tree) :
    discipline.Ends base (Encoder.derive (·.returned signature)) fun last id =>
      last.overlay.Unfolds id (TypeTree.returned signature.convention tree) :=
  derive (fun _ within sound => sound.derives_returned (unfolds.mono within))
    fun _ modest => modest.returned held

theorem mutableOf (formed : graph.WellFormed) (unfolds : base.overlay.Unfolds id tree)
    (found : base.overlay.type id = .ok node) (listed : node ∈ graph.types) :
    discipline.Ends base (Encoder.mutableOf id) fun last other =>
      last.overlay.Unfolds other tree.mutable :=
  type_bind found (derive
    (fun _ within sound => sound.derives_mutable formed (unfolds.mono within)
      (Overlay.type_mono within found))
    fun _ modest => modest.intern (.mutable listed))

theorem refuseType (formed : graph.WellFormed) (unfolds : base.overlay.Unfolds id tree)
    (reason : TypeReason) :
    discipline.Ends base (Encoder.refuseType id reason : Encoder graph τ α) promise := by
  intro session within valid
  rw [Encoder.run_refuseType,
    valid.sound.spellType_eq_ok formed (unfolds.mono within.overlay)]
  exact .error valid (by rintro fault ⟨⟩)

theorem passed (formed : graph.WellFormed) {param : Param}
    (held : graph.Holds (.type param.type)) (unfolds : base.overlay.Unfolds param.type tree) :
    discipline.Ends base (Encoder.passed param) fun last id =>
      last.overlay.Unfolds id (TypeTree.passed (param.passing, tree)) := by
  have derived : discipline.Ends base (Encoder.derive (·.passed param)) fun last id =>
      last.overlay.Unfolds id (TypeTree.passed (param.passing, tree)) :=
    derive (fun _ within sound => sound.derives_passed (unfolds.mono within))
      fun _ modest => modest.passed held
  refine derived.bind fun later id _ _ unfolded => ?_
  obtain ⟨node, part, found, -, -⟩ := unfolded.found
  exact type_bind found (demand_bind (refuseType formed unfolded .arrayByValue)
    (.pure fun last grown _ => unfolded.mono grown.overlay))

/-- Only a function has a signature. -/
theorem signature_bind (formed : graph.WellFormed) (unfolds : base.overlay.Unfolds id tree)
    {next : Signature → Encoder graph τ α}
    (rest : ∀ signature quals, base.overlay.type id = .ok { form := .function signature, quals } →
      discipline.Ends base (next signature) promise) :
    discipline.Ends base (Encoder.signature id >>= next) promise := by
  obtain ⟨⟨form, quals⟩, part, found, -, -⟩ := unfolds.found
  rw [Encoder.signature, bind_assoc]
  refine type_bind found ?_
  cases form with
  | function signature => simpa using rest signature quals found
  | _ => exact refuse_bind (refuseType formed unfolds .notFunction)

/-! ### Refusals -/

theorem refuseArgument (formed : graph.WellFormed) {owner : SymbolId} {arg : TemplateArg}
    (heldOwner : graph.Holds (.symbol owner)) (held : graph.HoldsArg arg)
    (reason : ArgumentReason) :
    discipline.Ends base (Encoder.refuseArgument owner arg reason : Encoder graph τ α) promise := by
  intro session within valid
  have run : (Encoder.refuseArgument owner arg reason : Encoder graph τ α).run session =
      (Encoder.ofExcept (session.overlay.spellSymbol owner) >>= fun text =>
        Encoder.ofExcept (session.overlay.spellArgument arg) >>= fun spelled =>
          MonadExcept.throw (.argument text spelled reason) : Encoder graph τ α).run session := rfl
  rw [run, valid.sound.spellSymbol_eq_ok formed heldOwner,
    valid.sound.spellArgument_eq_ok formed held]
  exact .error valid (by rintro fault ⟨⟩)

theorem refuseSymbol (formed : graph.WellFormed) {id : SymbolId} {symbol : Symbol}
    (stored : graph.symbol id = .ok symbol) :
    discipline.Ends base (Encoder.refuseSymbol id : Encoder graph τ α) promise := by
  rw [Encoder.refuseSymbol_eq_throw formed stored]
  exact .throw (by rintro fault ⟨⟩)

theorem refuseStorage (formed : graph.WellFormed) {id : SymbolId}
    (held : graph.Holds (.symbol id)) :
    discipline.Ends base (Encoder.refuseStorage id : Encoder graph τ α) promise := by
  rw [Encoder.refuseStorage_eq_throw formed held]
  exact .throw (by rintro fault ⟨⟩)

end Ends

/-! ### Tokens -/

namespace Ends

variable {base : Session graph τ} {first second : Encoder graph τ (List β)}

/-- More is written around what a computation writes. -/
theorem wrap {whole : List β → List β} (writes : discipline.Writes base first)
    (kept : ∀ (last : Session graph τ) tokens, discipline.Written last tokens →
      discipline.Written last (whole tokens)) :
    discipline.Writes base (do return whole (← first)) :=
  writes.bind fun _ _ _ _ written => .pure fun last grown _ => kept last _ (written.mono grown)

/-- What two computations write, one after the other, is put together. -/
theorem join {whole : List β → List β → List β} (writes : discipline.Writes base first)
    (also : ∀ later, discipline.Later base later → discipline.Writes later second)
    (kept : ∀ (last : Session graph τ) before after, discipline.Written last before →
      discipline.Written last after → discipline.Written last (whole before after)) :
    discipline.Writes base (do return whole (← first) (← second)) :=
  writes.bind fun later _ grown _ written => (also later grown).bind fun _ _ further _ written' =>
    .pure fun last beyond _ =>
      kept last _ _ (written.mono (further.trans beyond)) (written'.mono beyond)

theorem concat {write : α → Encoder graph τ (List β)} {list : List α}
    (each : ∀ element ∈ list, discipline.Writes base (write element)) :
    discipline.Writes base (Encoder.concat write list) := by
  induction list generalizing base with
  | nil => exact .pure fun _ _ _ => .nil
  | cons first rest ih =>
      obtain ⟨head, tail⟩ := List.forall_mem_cons.mp each
      refine head.join (fun later grown => ?_) fun _ _ _ written also =>
        Written.append_iff.mpr ⟨written, also⟩
      exact ih fun element listed => (tail element listed).mono grown

end Ends

end Discipline

end LinkName
