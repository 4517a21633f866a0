import LinkName.Encoder
import LinkName.Itanium.Token
import LinkName.Table

/-!
What an Itanium name has mentioned can be referred back to by its slot in the substitution table: a
name takes its slot before it is written, a compound type when it has been written in full.

Scopes, types and template arguments contain one another. An `Encoding` says how these parts are
written; the modules beside this one say, given an encoding of its parts, how each thing is written
itself.
-/
namespace LinkName.Itanium

/-- What a slot of the substitution table holds. -/
inductive Component where
  | symbol (id : SymbolId)
  | type (id : TypeId)
  /-- A slot that is counted but never referred back to. -/
  | unnamed
  deriving DecidableEq, Repr

/-- Where a type stands. The outermost type of a parameter does not spell its own `const`. -/
inductive Place where
  | outermost
  | nested
  deriving DecidableEq, Repr

abbrev LimitedEncoder (handles : Option Nat) (graph : Graph) : Type → Type :=
  LinkName.LimitedEncoder handles graph (Table Component)

abbrev Encoder (graph : Graph) : Type → Type := LimitedEncoder none graph

variable {handles : Option Nat} {graph : Graph}

/-- How the parts of a name are written. -/
structure Encoding (graph : Graph) (handles : Option Nat := none) where
  /-- A scope and all that encloses it. -/
  scope : SymbolId → LimitedEncoder handles graph (List Token)
  /-- An argument of a specialization. -/
  argument : SymbolId → TemplateArg → LimitedEncoder handles graph (List Token)
  type : TypeId → Place → LimitedEncoder handles graph (List Token)

def slotOf? (component : Component) : LimitedEncoder handles graph (Option Nat) := do
  return (← get).tables.find? component

def isKnown (component : Component) : LimitedEncoder handles graph Bool := do
  return (← get).tables.contains component

def store (component : Component) : LimitedEncoder handles graph Unit :=
  modify fun session => { session with tables := (session.tables.push component).2 }

def storeIf (condition : Bool) (component : Component) : LimitedEncoder handles graph Unit :=
  if condition then store component else pure ()

/-- Refers back to a slot, which needs a name for that. -/
def backRef (slot : Nat) : LimitedEncoder handles graph (List Token) :=
  match slotName? slot handles with
  | some _ => pure [.backRef slot]
  | none => throw (.malformed .noSequence)

/-- Every slot has a name where sequence numbers are not limited. -/
@[simp] theorem backRef_unlimited (slot : Nat) :
    (backRef slot : Encoder graph (List Token)) = pure [.backRef slot] := rfl

/-- Refers back to `component` if it has a slot, and writes it otherwise. -/
def orBackRef (component : Component) (write : LimitedEncoder handles graph (List Token)) :
    LimitedEncoder handles graph (List Token) := do
  match ← slotOf? component with
  | some slot => backRef slot
  | none => write

theorem run_orBackRef_elim {component : Component}
    {write : LimitedEncoder handles graph (List Token)}
    {session : Session graph (Table Component) handles} :
    (orBackRef component write).run session =
      ((session.tables.find? component).elim write backRef).run session := by
  have looked : orBackRef component write =
      slotOf? component >>= fun found => found.elim write backRef := by
    refine congrArg (slotOf? component >>= ·) (funext fun found => ?_)
    cases found <;> rfl
  rw [looked]
  rfl

/-- Writes what takes its slot when it is complete. -/
def thenStore (component : Component) (write : LimitedEncoder handles graph (List Token)) :
    LimitedEncoder handles graph (List Token) := do
  let tokens ← write
  store component
  return tokens

/-- Writes what takes its slot before it is written. -/
def storeThen (component : Component) (write : LimitedEncoder handles graph (List Token)) :
    LimitedEncoder handles graph (List Token) := do
  store component
  write

end LinkName.Itanium
