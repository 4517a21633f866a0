import LinkName.Itanium.Builtin
import LinkName.Itanium.Scope

/-!
Variables and functions, as the subject of a name and as arguments of a template. Declarations with
foreign linkage need no operator names, special names or local names.
-/
namespace LinkName.Itanium

variable {handles : Option Nat} {graph : Graph}
variable (machine : Target) (parts : Encoding graph handles)

/-- The type itself or, where its outermost `const` is dropped, the type without it. -/
def withoutConst (id : TypeId) : LimitedEncoder handles graph TypeId := do
  if (← Encoder.type id).dropsConst then Encoder.mutableOf id else pure id

def parameter (param : Param) : LimitedEncoder handles graph (List Token) := do
  let id ← Encoder.passed param
  parts.type (← withoutConst id) .outermost

/-- What ends a parameter list; an empty one is spelled out. -/
def parameterEnd (signature : Signature) : List Token :=
  if signature.variadic then [.text "z"]
  else if signature.params.isEmpty then [.text "v"] else []

def parameters (signature : Signature) : LimitedEncoder handles graph (List Token) := do
  return (← Encoder.concat (parameter parts) signature.params) ++ parameterEnd signature

def freeVariable (ident : String) : List Token :=
  (if machine.machO then [.text "_"] else []) ++ [.text ident]

/-- The name of a variable. Outside every scope it is the bare identifier, unless it has to be told
apart inside a template argument. -/
def variableName (asArgument : Bool) (id : SymbolId) :
    LimitedEncoder handles graph (List Token) := do
  let symbol ← Encoder.symbol id
  match symbol.sort with
  | .var info => do
    Encoder.demand info.storage.isLinkable (Encoder.refuseStorage id)
    match ← Encoder.scopeParent id with
    | some scope =>
      return [.text machine.lead, .text "N"] ++ (← parts.scope scope) ++ (← sourceName parts id) ++
        [.text "E"]
    | none =>
      if asArgument then return [.text machine.lead] ++ (← sourceName parts id)
      else return freeVariable machine symbol.ident
  | _ => Encoder.refuseSymbol id

/-- The last level of the name of a member function. -/
def ownName (info : FunctionInfo) (id : SymbolId) : LimitedEncoder handles graph (List Token) :=
  if info.role = .destructor then pure [.text "D1"] else sourceName parts id

/-- The name of a function with C++ linkage, without its parameters. -/
def functionPath (info : FunctionInfo) (id : SymbolId) :
    LimitedEncoder handles graph (List Token) := do
  match ← Encoder.scopeParent id with
  | some scope =>
    let const := if info.isConst then [.text "K"] else []
    return [.text "N"] ++ const ++ (← parts.scope scope) ++ (← ownName parts info id) ++ [.text "E"]
  | none => sourceName parts id

/-- The name of a function. Only C++ linkage makes scope and parameters part of it. -/
def functionName (id : SymbolId) : LimitedEncoder handles graph (List Token) := do
  let symbol ← Encoder.symbol id
  match symbol.sort with
  | .function info =>
    let signature ← Encoder.signature info.type
    if signature.linkage = .cpp then
      return [.text machine.lead] ++ (← functionPath parts info id) ++ (← parameters parts signature)
    else return [.text machine.lead] ++ (← sourceName parts id)
  | _ => Encoder.refuseSymbol id

def literal (basic : BasicType) (number : Int) : List Token :=
  let (isNegative, magnitude) := basic.signMagnitude number
  (if isNegative then [.text "n"] else []) ++ [.number magnitude]

def argument (owner : SymbolId) (arg : TemplateArg) : LimitedEncoder handles graph (List Token) := do
  match arg with
  | .type type => parts.type type .nested
  | .value type number =>
    match (← Encoder.type type).form.integral? with
    | some basic =>
      return [.text "L"] ++ (← parts.type type .nested) ++ literal basic number ++ [.text "E"]
    | none => Encoder.refuseArgument owner arg .notIntegral
  | .symbolAlias target =>
    match (← Encoder.symbol target).sort with
    | .function info =>
      let signature ← Encoder.signature info.type
      let isExpression := (← Encoder.scopeParent target).isSome && signature.linkage == .cpp
      let name := [.text "L"] ++ (← functionName machine parts target) ++ [.text "E"]
      return if isExpression then [.text "X"] ++ name ++ [.text "E"] else name
    | .var _ => return [.text "L"] ++ (← variableName machine parts true target) ++ [.text "E"]
    | .template (some _) => mention parts target
    | _ => Encoder.refuseArgument owner arg .aliasTarget
  | .typeAlias _ => Encoder.refuseArgument owner arg .aliasTarget
  | .pack _ => Encoder.refuseArgument owner arg .nestedPack

end LinkName.Itanium
