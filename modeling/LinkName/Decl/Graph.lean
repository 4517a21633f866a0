import LinkName.Decl.Index
import LinkName.Decl.Symbol

/-!
The graph of declarations that names are made from. Symbols and type nodes are numbered in the order
in which they are added. A type node that equals an older one gets the older handle, so two handles
of a graph are equal exactly when their nodes are.
-/
namespace LinkName

/-- How the making of a name can break off. The first three do not arise while handles name what
was added before them, and the last two only where handles and sequence numbers are limited. -/
inductive Fault where
  | noSymbol (id : SymbolId)
  | noType (id : TypeId)
  /-- Symbols or types contain themselves. -/
  | endless
  /-- A type is derived when no handle is left. -/
  | noHandle
  /-- A slot is referred back to that no sequence number is left for. -/
  | noSequence
  deriving DecidableEq, Repr

namespace Fault

def message : Fault → String
  | noSymbol id => "no symbol " ++ toString id
  | noType id => "no type " ++ toString id
  | endless => "a declaration contains itself"
  | noHandle => "more than u32::MAX types in one request"
  | noSequence => "substitution index exceeds u32::MAX"

end Fault

structure Graph where
  symbols : List Symbol := []
  types : List TypeNode := []
  /-- The way back from a node to its handle. -/
  index : Index types := .of types
  deriving Repr

namespace Graph

def symbol (graph : Graph) (id : SymbolId) : Except Fault Symbol :=
  match graph.symbols[id.index]? with
  | some symbol => .ok symbol
  | none => .error (.noSymbol id)

def addSymbol (graph : Graph) (symbol : Symbol) : SymbolId × Graph :=
  (⟨graph.symbols.length⟩, { graph with symbols := graph.symbols ++ [symbol] })

def addModule (graph : Graph) (ident : String) : SymbolId × Graph :=
  graph.addSymbol { ident, sort := .moduleScope }

/-- Adds a symbol of the given sort to the scope `parent`. -/
def declare (graph : Graph) (ident : String) (parent : SymbolId) (sort : SymbolSort) :
    SymbolId × Graph :=
  graph.addSymbol { ident, parent := some parent, sort }

/-- Adds a specialization, which takes the name and the scope of its template. -/
def specialize (graph : Graph) (template : SymbolId) (args : List TemplateArg) :
    Except Fault (SymbolId × Graph) := do
  let general ← graph.symbol template
  return graph.addSymbol
    { ident := general.ident, parent := general.parent, sort := .specialization template args }

def modifySymbol (graph : Graph) (id : SymbolId) (change : Symbol → Symbol) : Graph :=
  { graph with symbols := graph.symbols.modify id.index change }

/-- Records the only member of a template; other symbols have none. -/
def setMember (graph : Graph) (template member : SymbolId) : Graph :=
  graph.modifySymbol template fun symbol =>
    match symbol.sort with
    | .template _ => { symbol with sort := .template (some member) }
    | _ => symbol

def setAccess (graph : Graph) (id : SymbolId) (access : Access) : Graph :=
  graph.modifySymbol id fun symbol => { symbol with access }

def findType? (graph : Graph) (node : TypeNode) : Option TypeId :=
  (graph.index.find? node).map TypeId.mk

/-- The handle of `node`, added if no equal node is there. -/
def internType (graph : Graph) (node : TypeNode) : TypeId × Graph :=
  match graph.findType? node with
  | some id => (id, graph)
  | none =>
    (⟨graph.types.length⟩,
      { graph with types := graph.types ++ [node], index := graph.index.insert node })

/-- The unqualified type of the given form. -/
def internForm (graph : Graph) (form : TypeForm) : TypeId × Graph := graph.internType { form }

def type (graph : Graph) (id : TypeId) : Except Fault TypeNode :=
  match graph.types[id.index]? with
  | some node => .ok node
  | none => .error (.noType id)

/-- The type `id` with `quals` added to its own qualifiers. -/
def qualify (graph : Graph) (id : TypeId) (quals : Qualifiers) :
    Except Fault (TypeId × Graph) := do
  return graph.internType ((← graph.type id).qualified quals)

/-- The parent of `id`, unless it has none or it is a module. -/
def scopeParent (graph : Graph) (id : SymbolId) : Except Fault (Option SymbolId) := do
  match (← graph.symbol id).parent with
  | none => return none
  | some parent => return if (← graph.symbol parent).isModule then none else some parent

end Graph

/-- One level of a qualified name. A member of a specialization is absorbed by it: the
specialization is what the level spells. -/
structure Level where
  name : SymbolId
  /-- The enclosing scope of `name`, if it is not a module. -/
  scope : Option SymbolId
  /-- The template, if the level is spelled through one of its specializations. -/
  template : Option SymbolId
  deriving DecidableEq, Repr

namespace Graph

def level (graph : Graph) (id : SymbolId) : Except Fault Level := do
  match (← graph.symbol id).parent with
  | none => return { name := id, scope := none, template := none }
  | some parent =>
    let outer ← graph.symbol parent
    match outer.template? with
    | some template =>
      return { name := parent, scope := ← graph.scopeParent parent, template := some template }
    | none =>
      return { name := id, scope := if outer.isModule then none else some parent, template := none }

/-- The symbols whose names make up the qualified name of `id`, innermost first. -/
def levelsWithin (graph : Graph) : Nat → SymbolId → Except Fault (List SymbolId)
  | 0, _ => .error .endless
  | fuel + 1, id => do
    let name := (← graph.level id).name
    let symbol ← graph.symbol name
    if symbol.isModule then return []
    else
      match symbol.parent with
      | none => return [name]
      | some parent => return name :: (← levelsWithin graph fuel parent)

def levels (graph : Graph) (id : SymbolId) : Except Fault (List SymbolId) :=
  graph.levelsWithin (graph.symbols.length + 1) id

theorem symbol_eq_ok_iff {graph : Graph} {id : SymbolId} {found : Symbol} :
    graph.symbol id = .ok found ↔ graph.symbols[id.index]? = some found := by
  unfold symbol
  split <;> simp_all

theorem type_eq_ok_iff {graph : Graph} {id : TypeId} {node : TypeNode} :
    graph.type id = .ok node ↔ graph.types[id.index]? = some node := by
  unfold type
  split <;> simp_all

end Graph

end LinkName
