import LinkName.Decl.TypeNode

/-!
Symbols: the declarations of a program and the scopes that hold them. A template specialization is a
symbol of its own, beside the declaration of its template; its members have it as their parent.
-/
namespace LinkName

inductive Access where
  | priv
  | prot
  | pub
  deriving DecidableEq, Repr

inductive RecordKind where
  | struct
  | union
  | klass
  deriving DecidableEq, Repr

inductive FunctionRole where
  | plain
  | constructor
  | destructor
  deriving DecidableEq, Repr

structure FunctionInfo where
  type : TypeId
  role : FunctionRole := .plain
  /-- Takes an implicit `this`. -/
  needsThis : Bool := false
  /-- Occupies a slot of the virtual table. -/
  isVirtual : Bool := false
  /-- The implicit `this` is const. -/
  isConst : Bool := false
  deriving DecidableEq, Repr

structure Storage where
  isExtern : Bool := false
  isGshared : Bool := false
  deriving DecidableEq, Repr

namespace Storage

/-- Whether the variable has one instance that the linker can see. -/
def isLinkable (storage : Storage) : Bool := storage.isExtern || storage.isGshared

end Storage

structure VariableInfo where
  type : TypeId
  storage : Storage := {}
  deriving DecidableEq, Repr

inductive TemplateArg where
  | type (type : TypeId)
  /-- An integer, read through `type`. -/
  | value (type : TypeId) (number : Int)
  | symbolAlias (symbol : SymbolId)
  | typeAlias (type : TypeId)
  /-- What is bound to a parameter pack. -/
  | pack (args : List TemplateArg)
  deriving Repr

mutual

/-- The arguments with every pack replaced by what it holds. -/
def TemplateArg.leaves : TemplateArg → List TemplateArg
  | .pack args => TemplateArg.leavesOf args
  | arg => [arg]

def TemplateArg.leavesOf : List TemplateArg → List TemplateArg
  | [] => []
  | first :: rest => first.leaves ++ TemplateArg.leavesOf rest

end

inductive SymbolSort where
  | moduleScope
  | namespaceScope
  | record (kind : RecordKind)
  | enumeration
  /-- A template, with its only member if it has exactly one, of its own name. -/
  | template (member : Option SymbolId)
  | specialization (template : SymbolId) (args : List TemplateArg)
  | function (info : FunctionInfo)
  | var (info : VariableInfo)
  deriving Repr

namespace SymbolSort

def describe : SymbolSort → String
  | .moduleScope => "module"
  | .namespaceScope => "namespace"
  | .record .struct => "struct"
  | .record .union => "union"
  | .record .klass => "class"
  | .enumeration => "enum"
  | .template _ => "template"
  | .specialization _ _ => "template instance"
  | .function _ => "function"
  | .var _ => "variable"

end SymbolSort

structure Symbol where
  ident : String
  /-- Absent for a module and for a symbol outside every scope. -/
  parent : Option SymbolId := none
  access : Access := .pub
  sort : SymbolSort
  deriving Repr

namespace Symbol

def isModule (symbol : Symbol) : Bool :=
  match symbol.sort with
  | .moduleScope => true
  | _ => false

/-- The template that the symbol is a specialization of. -/
def template? (symbol : Symbol) : Option SymbolId :=
  match symbol.sort with
  | .specialization template _ => some template
  | _ => none

end Symbol

end LinkName
