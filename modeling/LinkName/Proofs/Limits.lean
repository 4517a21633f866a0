import LinkName.Proofs.Simulation
import LinkName.Proofs.Type.Identity

/-!
Limited handles. With so many handles and sequence numbers a computation does what it does with as
many as it takes, or it breaks off for want of one. It breaks off only where, with as many as it
takes, more types are derived or more slots are taken than there are.
-/
namespace LinkName

/-- A handle or a sequence number was wanted, and there was none left. -/
def Fault.IsWant : Fault → Prop
  | .noHandle | .noSequence => True
  | _ => False

namespace Overlay

variable {graph : Graph} (overlay : Overlay graph)

theorem le_thunkOf (id : TypeId) : overlay ≤ (overlay.thunkOf id).2 := le_intern.trans le_intern

theorem le_passed (param : Param) : overlay ≤ (overlay.passed param).2 := by
  unfold passed
  cases param.passing with
  | value => exact le_rfl
  | ref | out => exact le_intern
  | lazy => exact overlay.le_thunkOf param.type

theorem le_returned (signature : Signature) : overlay ≤ (overlay.returned signature).2 := by
  unfold returned
  split
  · exact le_intern
  · exact le_rfl

end Overlay

theorem Encoder.run_derive {handles : Option Nat} {graph : Graph} {τ α : Type}
    (step : Overlay graph → α × Overlay graph) (session : Session graph τ handles) :
    (derive step : LimitedEncoder handles graph τ α).run session =
      if session.overlay.admits (step session.overlay).2 handles then
        .ok (step session.overlay).1 { session with overlay := (step session.overlay).2 }
      else .error (.malformed .noHandle) session := by
  change (ite _ _ _ : LimitedEncoder handles graph τ α).run session = _
  split <;> rfl

namespace Session

variable {handles : Option Nat} {graph : Graph} {τ : Type}

/-- The same state with as many handles as it takes. -/
def free (session : Session graph τ handles) : Session graph τ where
  overlay := session.overlay
  tables := session.tables

/-- A later state: types are only added, and slots are only taken. -/
structure Leads (size : τ → Nat) (first last : Session graph τ) : Prop where
  overlay : first.overlay ≤ last.overlay
  size : size first.tables ≤ size last.tables

/-- There are more types or more slots than so many. -/
def Outgrows (size : τ → Nat) (limit : Nat) (session : Session graph τ) : Prop :=
  limit < graph.types.length + session.overlay.derived.length ∨ limit < size session.tables

variable {size : τ → Nat} {first second third : Session graph τ}

theorem Leads.refl (session : Session graph τ) : Leads size session session := ⟨le_rfl, le_rfl⟩

theorem Leads.trans (leads : Leads size first second) (further : Leads size second third) :
    Leads size first third :=
  ⟨leads.overlay.trans further.overlay, leads.size.trans further.size⟩

theorem Outgrows.later {limit : Nat} (outgrows : first.Outgrows size limit)
    (leads : Leads size first second) : second.Outgrows size limit := by
  have derived := leads.overlay.length_le
  have taken := leads.size
  unfold Outgrows at outgrows ⊢
  omega

end Session

section

variable {handles : Option Nat} {graph : Graph} {τ α β γ : Type} (size : τ → Nat)

/-- How a limited run ends beside the free run from the same state: alike, or for want of a handle or
a sequence number, where the free run has outgrown the limit. -/
inductive Tracked : EStateM.Result Refusal (Session graph τ handles) α →
    EStateM.Result Refusal (Session graph τ) α → Prop where
  | ok (value : α) (session : Session graph τ handles) :
      Tracked (.ok value session) (.ok value session.free)
  | error (refusal : Refusal) (session : Session graph τ handles) :
      Tracked (.error refusal session) (.error refusal session.free)
  | want {fault : Fault} {last : Session graph τ handles} {limit : Nat}
      {reached : EStateM.Result Refusal (Session graph τ) α} (wanting : fault.IsWant)
      (limited : handles = some limit) (outgrown : (stop reached).Outgrows size limit) :
      Tracked (.error (.malformed fault) last) reached

/-- The limited computation does what the free one does, as far as the limit allows. -/
structure Tracks (limited : LimitedEncoder handles graph τ α) (free : Encoder graph τ α) :
    Prop where
  ends : ∀ session : Session graph τ handles,
    Tracked size (limited.run session) (free.run session.free)
  leads : ∀ session : Session graph τ, session.Leads size (stop (free.run session))

namespace Tracks

variable {size} {limited : LimitedEncoder handles graph τ α} {free : Encoder graph τ α}

/-! ## Rules -/

theorem pure (value : α) :
    Tracks size (Pure.pure value : LimitedEncoder handles graph τ α) (Pure.pure value) where
  ends session := .ok value session
  leads session := .refl session

theorem throw (refusal : Refusal) :
    Tracks size (MonadExcept.throw refusal : LimitedEncoder handles graph τ α)
      (MonadExcept.throw refusal) where
  ends session := .error refusal session
  leads session := .refl session

theorem bind {next : α → LimitedEncoder handles graph τ β} {next' : α → Encoder graph τ β}
    (first : Tracks size limited free) (rest : ∀ value, Tracks size (next value) (next' value)) :
    Tracks size (limited >>= next) (free >>= next') where
  ends session := by
    have tracked := first.ends session
    simp only [EStateM.run, Bind.bind, EStateM.bind] at tracked ⊢
    generalize limited session = left at tracked
    generalize free session.free = right at tracked
    cases tracked with
    | ok value later => exact (rest value).ends later
    | error refusal later => exact .error refusal later
    | want wanting limit outgrown =>
        refine .want wanting limit ?_
        cases right with
        | ok value later => exact outgrown.later ((rest value).leads later)
        | error refusal later => exact outgrown
  leads session := by
    have leads := first.leads session
    simp only [EStateM.run, Bind.bind, EStateM.bind] at leads ⊢
    cases ran : free session with
    | ok value later =>
        rw [ran] at leads
        exact leads.trans ((rest value).leads later)
    | error refusal later =>
        rw [ran] at leads
        exact leads

theorem map (tracks : Tracks size limited free) (change : α → β) :
    Tracks size (limited >>= fun value => Pure.pure (change value))
      (free >>= fun value => Pure.pure (change value)) :=
  tracks.bind fun _ => .pure _

/-- The state is only read. -/
theorem read_bind {next : Session graph τ handles → LimitedEncoder handles graph τ α}
    {next' : Session graph τ → Encoder graph τ α}
    (rest : ∀ session, Tracks size (next session) (next' session.free)) :
    Tracks size (get >>= next) (get >>= next') where
  ends session := (rest session).ends session
  leads session := (rest ⟨session.overlay, session.tables⟩).leads session

/-- The tables are changed, and no slot is given up. -/
theorem change (value : τ → α) (tables : τ → τ)
    (limited_run : ∀ session : Session graph τ handles, limited.run session =
      .ok (value session.tables) { session with tables := tables session.tables })
    (free_run : ∀ session : Session graph τ, free.run session =
      .ok (value session.tables) { session with tables := tables session.tables })
    (grows : ∀ before, size before ≤ size (tables before)) : Tracks size limited free where
  ends session := by
    rw [limited_run, free_run]
    exact .ok _ { session with tables := tables session.tables }
  leads session := by
    rw [free_run]
    exact ⟨le_rfl, grows session.tables⟩

/-- The one step that takes handles. -/
theorem derive {step : Overlay graph → α × Overlay graph}
    (grows : ∀ overlay, overlay ≤ (step overlay).2) :
    Tracks size (Encoder.derive step : LimitedEncoder handles graph τ α) (Encoder.derive step) where
  ends session := by
    rw [Encoder.run_derive]
    split
    · exact .ok (step session.overlay).1 { session with overlay := (step session.overlay).2 }
    · next full =>
      obtain _ | limit := handles
      · exact absurd rfl full
      · refine .want trivial rfl (.inl ?_)
        simp only [Overlay.admits, Option.all_some, Bool.or_eq_true, not_or, decide_eq_true_eq,
          Nat.not_le] at full
        exact full.2
  leads session := ⟨grows session.overlay, le_rfl⟩

theorem ite {condition : Prop} [Decidable condition]
    {limited' : LimitedEncoder handles graph τ α} {free' : Encoder graph τ α}
    (first : Tracks size limited free) (second : Tracks size limited' free') :
    Tracks size (if condition then limited else limited')
      (if condition then free else free') := by
  split
  · exact first
  · exact second

/-! ## Steps -/

theorem ofExcept (found : Except Fault α) :
    Tracks size (Encoder.ofExcept found : LimitedEncoder handles graph τ α)
      (Encoder.ofExcept found) := by
  cases found with
  | ok value => exact .pure value
  | error fault => exact .throw _

theorem symbol (id : SymbolId) :
    Tracks size (Encoder.symbol id : LimitedEncoder handles graph τ Symbol) (Encoder.symbol id) :=
  .ofExcept _

theorem scopeParent (id : SymbolId) :
    Tracks size (Encoder.scopeParent id : LimitedEncoder handles graph τ (Option SymbolId))
      (Encoder.scopeParent id) :=
  .ofExcept _

theorem type (id : TypeId) :
    Tracks size (Encoder.type id : LimitedEncoder handles graph τ TypeNode) (Encoder.type id) :=
  read_bind fun _ => .ofExcept _

theorem mutableOf (id : TypeId) :
    Tracks size (Encoder.mutableOf id : LimitedEncoder handles graph τ TypeId)
      (Encoder.mutableOf id) :=
  (type id).bind fun _ => .derive fun _ => Overlay.le_intern

theorem returned (signature : Signature) :
    Tracks size (Encoder.derive (·.returned signature) : LimitedEncoder handles graph τ TypeId)
      (Encoder.derive (·.returned signature)) :=
  .derive fun overlay => overlay.le_returned signature

theorem refuseSymbol (id : SymbolId) :
    Tracks size (Encoder.refuseSymbol id : LimitedEncoder handles graph τ α)
      (Encoder.refuseSymbol id) :=
  (ofExcept _).bind fun _ => (symbol id).bind fun _ => .throw _

theorem refuseStorage (id : SymbolId) :
    Tracks size (Encoder.refuseStorage id : LimitedEncoder handles graph τ α)
      (Encoder.refuseStorage id) :=
  (ofExcept _).bind fun _ => .throw _

theorem refuseType (id : TypeId) (reason : TypeReason) :
    Tracks size (Encoder.refuseType id reason : LimitedEncoder handles graph τ α)
      (Encoder.refuseType id reason) :=
  read_bind fun _ => (ofExcept _).bind fun _ => .throw _

theorem refuseArgument (owner : SymbolId) (arg : TemplateArg) (reason : ArgumentReason) :
    Tracks size (Encoder.refuseArgument owner arg reason : LimitedEncoder handles graph τ α)
      (Encoder.refuseArgument owner arg reason) :=
  read_bind fun _ => (ofExcept _).bind fun _ => (ofExcept _).bind fun _ => .throw _

theorem demand (condition : Bool) {refusal : LimitedEncoder handles graph τ Unit}
    {refusal' : Encoder graph τ Unit} (refused : Tracks size refusal refusal') :
    Tracks size (Encoder.demand condition refusal) (Encoder.demand condition refusal') :=
  .ite (.pure ()) refused

theorem signature (id : TypeId) :
    Tracks size (Encoder.signature id : LimitedEncoder handles graph τ Signature)
      (Encoder.signature id) := by
  refine (type id).bind fun node => ?_
  cases node.form with
  | function signature => exact .pure signature
  | _ => exact .refuseType id .notFunction

theorem passed (param : Param) :
    Tracks size (Encoder.passed param : LimitedEncoder handles graph τ TypeId)
      (Encoder.passed param) :=
  (derive fun overlay => overlay.le_passed param).bind fun id => (type id).bind fun _ =>
    (demand _ (.refuseType id .arrayByValue)).bind fun _ => .pure id

theorem concat {write : α → LimitedEncoder handles graph τ (List β)}
    {write' : α → Encoder graph τ (List β)} (list : List α)
    (each : ∀ element, Tracks size (write element) (write' element)) :
    Tracks size (Encoder.concat write list) (Encoder.concat write' list) := by
  induction list with
  | nil => exact .pure []
  | cons first rest ih => exact (each first).bind fun _ => ih.map _

/-! ## Outcomes -/

/-- A name is made with a limit as it is without, or it is not made for want of a handle or a
sequence number. -/
theorem outcome_eq {tables : τ} (tracks : Tracks size limited free) :
    Encoder.outcome limited tables = Encoder.outcome free tables ∨
      ∃ fault limit, Encoder.outcome limited tables = .error (.malformed fault) ∧ fault.IsWant ∧
        handles = some limit ∧ (stop (free.run { tables })).Outgrows size limit := by
  have tracked := tracks.ends { tables }
  unfold Encoder.outcome
  change Tracked size _ (free.run { tables }) at tracked
  generalize limited.run { tables } = left at tracked
  generalize free.run { tables } = right at tracked
  cases tracked with
  | ok value session => exact .inl rfl
  | error refusal session => exact .inl rfl
  | want wanting limited outgrown => exact .inr ⟨_, _, rfl, wanting, limited, outgrown⟩

end Tracks

end

end LinkName
