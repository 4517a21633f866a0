import LinkName.Microsoft.Name
import LinkName.Proofs.Item
import LinkName.Proofs.Microsoft.Script

/-!
The script of a Microsoft name. A plan says which script every scope, argument and type has, and the
script of an item is made from those of its parts.
-/
namespace LinkName.Microsoft

abbrev Item : Type := LinkName.Item Place

abbrev Plan : Type := Item → Script

def Script.ofExcept {α : Type} (found : Except Fault α) (next : α → Script) : Script :=
  match found with
  | .ok value => next value
  | .error fault => .refuse (.malformed fault)

/-- A type is recorded where it is not below another one and not returned. -/
def Script.recorded (place : Place) (tree : TypeTree) (body : Script) : Script :=
  if place.indirect || place.returned then body else .orTypeRef tree body

/-- The same for a type that is recorded when it is complete. -/
def Script.recordedAfter (place : Place) (tree : TypeTree) (lead : List Token) (body : Script) :
    Script :=
  if place.indirect || place.returned then .append (.write lead) body
  else .typeRefAfter tree lead body

namespace Plan

variable (graph : Graph) (machine : Target) (plan : Plan)

/-! ## Names -/

def arguments (owner : SymbolId) : List TemplateArg → Script
  | [] => .write []
  | [.pack args] => .concat (args.map fun arg => plan (.argument owner arg))
  | .pack args :: _ :: _ =>
    .refuse (.argument (graph.text owner) (graph.argumentText graph.text (.pack args)) .packNotLast)
  | first :: rest => .append (plan (.argument owner first)) (arguments owner rest)

def repeatedScope (symbol : Symbol) : Script :=
  match symbol.parent with
  | some parent => if machine.isLegacy then plan (.scope parent) else .write []
  | none => .write []

def levelName (spelledOut : Bool) (id : SymbolId) : Script :=
  .ofExcept (graph.symbol id) fun symbol =>
    match symbol.sort with
    | .specialization _ args =>
      let level : Script :=
        .append (.write [.text "?$", .ident symbol.ident, .text "@"])
          (.append (repeatedScope machine plan symbol) (arguments graph plan id args))
      if machine.isLegacy then .append level (.write [.text "@"]) else .level spelledOut level
    | .function { role := .destructor, .. } => .write [.text "?1"]
    | _ => .level spelledOut (.write [.ident symbol.ident])

def levelNames (spelledOut : Bool) (id : SymbolId) : Script :=
  .ofExcept (graph.levels id) fun names =>
    .concat (names.map (levelName graph machine plan spelledOut))

def qualifiedName (id : SymbolId) : Script :=
  .append (levelNames graph machine plan false id) (.write [.text "@"])

/-! ## Types -/

def modifier (tree : TypeTree) (place : Place) : List Token :=
  if place.element then []
  else if place.indirect then [.text (if tree.isConst then "B" else "A")]
  else if tree.isConst && machine.isLegacy && !tree.isPointer then [.text "_O"]
  else []

/-- An array below a pointer or a reference, with all its dimensions. -/
def array (tree : TypeTree) (place : Place) : Script :=
  .append (.write (modifier machine tree place ++ dimensions tree.shape.1))
    (plan (.type tree.shape.2 { place with element := true }))

def pointee (tree : TypeTree) (place : Place) : Script :=
  if tree.isStaticArray then array machine plan tree place else plan (.type tree place)

def parameter (param : Passing × TypeTree) : Script :=
  if (TypeTree.passed param).isStaticArray then
    .refuse (.type ((TypeTree.passed param).spell graph.text) .arrayByValue)
  else plan (.type (TypeTree.passed param) {})

def parameterEnd (isVariadic isEmpty : Bool) : List Token :=
  [.text (if isVariadic then "Z" else if isEmpty then "X" else "@"), .text "Z"]

def parameters (params : List (Passing × TypeTree)) (isVariadic : Bool) : Script :=
  .append (.concat (params.map (parameter graph plan)))
    (.write (parameterEnd isVariadic params.isEmpty))

def resultMark : TypeTree → List Token
  | .named .record _ _ | .named (.enumeration _) _ _ => [.text "?A"]
  | _ => []

def result (isStructor : Bool) (convention : Convention) (tree : TypeTree) : Script :=
  if isStructor then .write [.text "@"]
  else
    .append (.write (resultMark (TypeTree.returned convention tree)))
      (plan (.type (TypeTree.returned convention tree) { returned := true }))

def functionType (tree : TypeTree) (needsThis isStructor : Bool) : Script :=
  match tree with
  | .function result' params convention _ =>
    match convention? machine convention.linkage (needsThis && !convention.variadic) with
    | none => .refuse (.type (tree.spell graph.text) .noConvention)
    | some code =>
      .append (.write [.text code]) (.append (result plan isStructor convention result')
        (parameters graph plan params convention.variadic))
  | _ => .refuse (.type (tree.spell graph.text) .notFunction)

def pointer (tree target : TypeTree) (place : Place) : Script :=
  match target with
  | .function _ _ _ _ =>
    .recordedAfter place tree [pointerLetter tree.isConst, .text "6"]
      (functionType graph machine plan target false false)
  | .layer (.staticArray _) _ _ =>
    .recorded place tree
      (.append (.write (modifier machine tree place ++
          pointerLetter (tree.isConst || !machine.isLegacy) :: width machine))
        (array machine plan target place.below))
  | _ =>
    .recorded place tree
      (.append (.write (modifier machine tree place ++ pointerLetter tree.isConst :: width machine))
        (plan (.type target place.below)))

def basicType (tree : TypeTree) (basic : BasicType) (place : Place) : Script :=
  match builtin? machine basic with
  | none => .refuse (.type (tree.spell graph.text) .noBuiltin)
  | some code =>
    let tokens := modifier machine tree place ++ [.text code]
    if (tree.isConst && (place.indirect || machine.isLegacy)) || basic == .bool then
      .recorded place tree (.write tokens)
    else .write tokens

/-- What stands before the name of a record, an enumeration or a class, if such types have names. -/
def namedLead (naming : Naming) (symbol : Symbol) (tree : TypeTree) (place : Place) :
    Except TypeReason (List Token) :=
  match naming with
  | .record => .ok (modifier machine tree place ++ [.text (recordLetter symbol)])
  | .enumeration base =>
    match enumBase? base with
    | some code => .ok (modifier machine tree place ++ [.text code])
    | none => .error .enumBase
  | .classRef =>
    .ok ((if place.indirect then modifier machine tree place else []) ++
      [pointerLetter tree.isConst] ++ width machine ++ modifier machine tree place.below ++
      [.text (recordCode .klass)])
  | .typedef => .error .noCounterpart

def namedType (naming : Naming) (symbol : SymbolId) (tree : TypeTree) (place : Place) : Script :=
  .ofExcept (graph.symbol symbol) fun found =>
    match namedLead machine naming found tree place with
    | .ok lead => .append (.write lead) (qualifiedName graph machine plan symbol)
    | .error reason => .refuse (.type (tree.spell graph.text) reason)

def type (tree : TypeTree) (place : Place) : Script :=
  if tree.isForeign then .refuse (.type (tree.spell graph.text) .foreignQualifiers)
  else
    match tree with
    | .basic basic _ => basicType graph machine tree basic place
    | .layer .vector _ _ => .recorded place tree (.write [.text "T__m128@@"])
    | .layer (.staticArray _) inner _ =>
      .recorded place tree
        (.append (.write [pointerLetter machine.isLegacy]) (pointee machine plan inner place.below))
    | .layer .pointer target _ => pointer graph machine plan tree target place
    | .layer .reference target _ =>
      .recorded place tree
        (.append (.write (.text "A" :: width machine)) (pointee machine plan target place.below))
    | .named .typedef _ _ => .refuse (.type (tree.spell graph.text) .noCounterpart)
    | .named naming symbol _ =>
      .recorded place tree (namedType graph machine plan naming symbol tree place)
    | .function _ _ _ _ => .refuse (.type (tree.spell graph.text) .bareFunction)
    | .layer .dynamicArray _ _ | .layer .delegate _ _ | .assocArray _ _ _ =>
      .refuse (.type (tree.spell graph.text) .noCounterpart)

/-! ## Declarations -/

def isMember (symbol : Symbol) : Bool :=
  match symbol.parent with
  | none => false
  | some parent =>
    match graph.symbol parent with
    | .ok { sort := .record _, .. } => true
    | _ => false

def functionName (id : SymbolId) (symbol : Symbol) (info : FunctionInfo) : Script :=
  .append (.write [.text "?"]) (.append (qualifiedName graph machine plan id)
    (.append (.write (placement machine info symbol.access (isMember graph symbol)))
      (functionType graph machine plan (graph.tree info.type) info.needsThis (info.role != .plain))))

def variableType (tree : TypeTree) : Script :=
  if tree.isPointer then plan (.type tree {}) else plan (.type tree.mutable {})

def variableEnd (tree : TypeTree) : List Token :=
  let wide := match tree with
    | .layer .pointer _ _ | .layer .reference _ _ => width machine
    | _ => []
  wide ++ [.text (if tree.isConst then "B" else "A")]

def variableName (id : SymbolId) (symbol : Symbol) (info : VariableInfo) : Script :=
  if info.storage.isLinkable then
    .append (.write [.text "?"]) (.append (qualifiedName graph machine plan id)
      (.ofExcept (graph.scopeParent id) fun scope =>
        if (graph.tree info.type).isForeign then
          .refuse (.type ((graph.tree info.type).spell graph.text) .foreignQualifiers)
        else
          .append (.write [.text (if scope.isSome then memberCode symbol.access else "3")])
            (.append (variableType plan (graph.tree info.type))
              (.write (variableEnd machine (graph.tree info.type))))))
  else .refuse (.storageClass (graph.text id))

/-- The letter of a template that an alias names. -/
def aliasLetter? (member : SymbolId) : Option String :=
  if machine.isLegacy then some (recordCode .klass)
  else
    match graph.symbol member with
    | .ok { sort := .record kind, .. } => some (recordCode kind)
    | _ => none

def argument (owner : SymbolId) (arg : TemplateArg) : Script :=
  let refuse (reason : ArgumentReason) : Script :=
    .refuse (.argument (graph.text owner) (graph.argumentText graph.text arg) reason)
  match arg with
  | .type id => plan (.type (graph.tree id) {})
  | .value id number =>
    match (graph.tree id).integral? with
    | some basic => .write (.text "$0" :: literal basic number)
    | none => refuse .notIntegral
  | .symbolAlias target =>
    .ofExcept (graph.symbol target) fun symbol =>
      match symbol.sort with
      | .function info =>
        .append (.write [.text "$1"]) (functionName graph machine plan target symbol info)
      | .var info =>
        .append (.write [.text (if machine.isLegacy then "$1" else "$E")])
          (variableName graph machine plan target symbol info)
      | .template (some member) =>
        match aliasLetter? graph machine member with
        | some letter =>
          .append (.write [.text letter]) (qualifiedName graph machine plan target)
        | none => refuse .aliasTemplate
      | _ => refuse .aliasTarget
  | .typeAlias _ => refuse .aliasTarget
  | .pack _ => refuse .nestedPack

/-! ## Whole names -/

/-- The script of an item, given the scripts of its parts. -/
def item : Item → Script
  | .scope id => levelNames graph machine plan true id
  | .argument owner arg => argument graph machine plan owner arg
  | .type tree place => type graph machine plan tree place

def within : Nat → Plan
  | 0 => fun _ => .refuse (.malformed .endless)
  | depth + 1 => item graph machine (within depth)

/-- The script of the name of a variable or a function. -/
def declaration (id : SymbolId) : Script :=
  .ofExcept (graph.symbol id) fun symbol =>
    match symbol.sort with
    | .var info => variableName graph machine plan id symbol info
    | .function info => functionName graph machine plan id symbol info
    | _ => .refuse (.symbolKind (graph.text id) symbol.sort.describe)

end Plan

end LinkName.Microsoft
