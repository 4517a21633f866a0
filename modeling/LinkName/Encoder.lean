import LinkName.Decl.Spelling
import LinkName.Refusal

/-!
The computation in which a name is made. It reads the graph, derives types in an overlay, keeps
tables of what has been mentioned, and ends with a value or a refusal; the state that it reached is
known in both cases.
-/
namespace LinkName

/-- The state of a computation that has so many handles and sequence numbers, or as many as it
takes. -/
structure Session (graph : Graph) (τ : Type) (handles : Option Nat := none) where
  overlay : Overlay graph := {}
  tables : τ

abbrev LimitedEncoder (handles : Option Nat) (graph : Graph) (τ : Type) : Type → Type :=
  EStateM Refusal (Session graph τ handles)

abbrev Encoder (graph : Graph) (τ : Type) : Type → Type := LimitedEncoder none graph τ

/-- Whether each type that `later` has and `overlay` has not has found a handle. -/
def Overlay.admits {graph : Graph} (overlay later : Overlay graph) (handles : Option Nat) : Bool :=
  handles.all fun limit =>
    later.derived.length == overlay.derived.length ||
      graph.types.length + later.derived.length ≤ limit

namespace Encoder

variable {handles : Option Nat} {graph : Graph} {τ α β : Type}

def ofExcept : Except Fault α → LimitedEncoder handles graph τ α
  | .ok value => pure value
  | .error fault => throw (.malformed fault)

def symbol (id : SymbolId) : LimitedEncoder handles graph τ Symbol := ofExcept (graph.symbol id)

def scopeParent (id : SymbolId) : LimitedEncoder handles graph τ (Option SymbolId) :=
  ofExcept (graph.scopeParent id)

def type (id : TypeId) : LimitedEncoder handles graph τ TypeNode := do
  ofExcept ((← get).overlay.type id)

/-- Runs a derivation on the overlay, which may run out of handles. -/
def derive (step : Overlay graph → α × Overlay graph) : LimitedEncoder handles graph τ α := do
  let before := (← get).overlay
  let derived := step before
  if before.admits derived.2 handles then
    modify fun session => { session with overlay := derived.2 }
    return derived.1
  else throw (.malformed .noHandle)

def mutableOf (id : TypeId) : LimitedEncoder handles graph τ TypeId := do
  let node ← type id
  derive (·.intern node.mutable)

def refuseSymbol (id : SymbolId) : LimitedEncoder handles graph τ α := do
  let text ← ofExcept (graph.spellSymbol id)
  throw (.symbolKind text (← symbol id).sort.describe)

def refuseStorage (id : SymbolId) : LimitedEncoder handles graph τ α := do
  throw (.storageClass (← ofExcept (graph.spellSymbol id)))

def refuseType (id : TypeId) (reason : TypeReason) : LimitedEncoder handles graph τ α := do
  throw (.type (← ofExcept ((← get).overlay.spellType id)) reason)

/-- Refuses an argument of the specialization `owner`. -/
def refuseArgument (owner : SymbolId) (arg : TemplateArg) (reason : ArgumentReason) :
    LimitedEncoder handles graph τ α := do
  let overlay := (← get).overlay
  throw (.argument (← ofExcept (overlay.spellSymbol owner)) (← ofExcept (overlay.spellArgument arg))
    reason)

/-- Goes on only if `condition` holds. -/
def demand (condition : Bool) (refusal : LimitedEncoder handles graph τ Unit) :
    LimitedEncoder handles graph τ Unit :=
  if condition then pure () else refusal

/-- The signature of a function type. -/
def signature (id : TypeId) : LimitedEncoder handles graph τ Signature := do
  match (← type id).form with
  | .function signature => return signature
  | _ => refuseType id .notFunction

/-- The type in which a parameter arrives. An array has none: C++ passes arrays by address only. -/
def passed (param : Param) : LimitedEncoder handles graph τ TypeId := do
  let id ← derive (·.passed param)
  let node ← type id
  demand (!node.form.isStaticArray) (refuseType id .arrayByValue)
  return id

/-- What each element is written as, one after the other. -/
def concat (write : α → LimitedEncoder handles graph τ (List β)) :
    List α → LimitedEncoder handles graph τ (List β)
  | [] => return []
  | first :: rest => return (← write first) ++ (← concat write rest)

/-- No part of a name is nested deeper: between two symbols or types of the graph there are a few
derived types and an argument at most. -/
def depthBound (graph : Graph) : Nat := 8 * (graph.symbols.length + graph.types.length + 1)

/-- The outcome of a computation that starts with the given tables. -/
def outcome (computation : LimitedEncoder handles graph τ α) (tables : τ) : Except Refusal α :=
  match computation.run { tables } with
  | .ok value _ => .ok value
  | .error refusal _ => .error refusal

end Encoder

end LinkName
