import LinkName.Microsoft.Type

/-!
Variables and functions, as the subject of a name and as arguments of a template.
-/
namespace LinkName.Microsoft

variable {handles : Option Nat} {graph : Graph}
variable (machine : Target) (parts : Encoding graph handles)

/-- Whether the parent of a symbol is a record. -/
def isMember (symbol : Symbol) : LimitedEncoder handles graph Bool := do
  match symbol.parent with
  | none => return false
  | some parent =>
    match (← Encoder.symbol parent).sort with
    | .record _ => return true
    | _ => return false

/-- How a function belongs to its scope. -/
def placement (info : FunctionInfo) (access : Access) (member : Bool) : List Token :=
  if info.needsThis then
    [.text (methodCode info.isVirtual access)] ++ width machine ++
      [.text (if info.isConst then "B" else "A")]
  else [.text (if member then staticCode access else "Y")]

def functionName (id : SymbolId) : LimitedEncoder handles graph (List Token) := do
  let symbol ← Encoder.symbol id
  match symbol.sort with
  | .function info =>
    return [.text "?"] ++ (← qualifiedName machine parts id) ++
      placement machine info symbol.access (← isMember symbol) ++
      (← functionType machine parts info.type info.needsThis (info.role != .plain))
  | _ => Encoder.refuseSymbol id

/-- The type of a variable. Its own `const` is written by the letter of a pointer and is left out of
all other types, since `variableEnd` adds it in any case. -/
def variableType (id : TypeId) (node : TypeNode) : LimitedEncoder handles graph (List Token) := do
  if node.form.isPointer then parts.type id {} else parts.type (← Encoder.mutableOf id) {}

/-- What follows the type of a variable. -/
def variableEnd (node : TypeNode) : List Token :=
  let wide := match node.form with
    | .pointer _ | .reference _ => width machine
    | _ => []
  wide ++ [.text (if node.isConst then "B" else "A")]

def variableName (id : SymbolId) : LimitedEncoder handles graph (List Token) := do
  let symbol ← Encoder.symbol id
  match symbol.sort with
  | .var info =>
    Encoder.demand info.storage.isLinkable (Encoder.refuseStorage id)
    let name ← qualifiedName machine parts id
    let isScoped := (← Encoder.scopeParent id).isSome
    let node ← Encoder.type info.type
    Encoder.demand (!node.isForeign) (Encoder.refuseType info.type .foreignQualifiers)
    return [.text "?"] ++ name ++ [.text (if isScoped then memberCode symbol.access else "3")] ++
      (← variableType parts info.type node) ++ variableEnd machine node
  | _ => Encoder.refuseSymbol id

def literal (basic : BasicType) (number : Int) : List Token :=
  let (isNegative, magnitude) := basic.signMagnitude number
  (if isNegative then [.text "?"] else []) ++ [.number magnitude]

/-- The letter of a template that an alias names. The modern dialect takes that of its member. -/
def aliasLetter? (member : SymbolId) : LimitedEncoder handles graph (Option String) := do
  if machine.isLegacy then return some (recordCode .klass)
  else
    match (← Encoder.symbol member).sort with
    | .record kind => return some (recordCode kind)
    | _ => return none

def argument (owner : SymbolId) (arg : TemplateArg) : LimitedEncoder handles graph (List Token) := do
  match arg with
  | .type type => parts.type type {}
  | .value type number =>
    match (← Encoder.type type).form.integral? with
    | some basic => return [.text "$0"] ++ literal basic number
    | none => Encoder.refuseArgument owner arg .notIntegral
  | .symbolAlias target =>
    match (← Encoder.symbol target).sort with
    | .function _ => return [.text "$1"] ++ (← functionName machine parts target)
    | .var _ =>
      return [.text (if machine.isLegacy then "$1" else "$E")] ++ (← variableName machine parts target)
    | .template (some member) =>
      match ← aliasLetter? machine member with
      | some letter => return [.text letter] ++ (← qualifiedName machine parts target)
      | none => Encoder.refuseArgument owner arg .aliasTemplate
    | _ => Encoder.refuseArgument owner arg .aliasTarget
  | .typeAlias _ => Encoder.refuseArgument owner arg .aliasTarget
  | .pack _ => Encoder.refuseArgument owner arg .nestedPack

end LinkName.Microsoft
