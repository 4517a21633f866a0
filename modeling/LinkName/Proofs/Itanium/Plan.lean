import LinkName.Itanium.Name
import LinkName.Proofs.Item
import LinkName.Proofs.Itanium.Script

/-!
The script of a name. Scopes, arguments and types are the items that names are made of; a plan says
which script each of them has, and the script of an item is made from those of its parts.
-/
namespace LinkName

def Layer.itaniumLead? (isConst : Bool) : Layer → Option (List Itanium.Token)
  | .pointer => some ((if isConst then [.text "K"] else []) ++ [.text "P"])
  | .reference => some [.text "R"]
  | .staticArray dim => some ((if isConst then [.text "K"] else []) ++
      [.text "A", .number dim, .text "_"])
  | .vector => some ((if isConst then [.text "K"] else []) ++ [.text "U8__vector"])
  | .dynamicArray | .delegate => none

namespace Itanium

abbrev Item : Type := LinkName.Item Place

abbrev Plan : Type := Item → Script

def Script.ofExcept {α : Type} (found : Except Fault α) (next : α → Script) : Script :=
  match found with
  | .ok value => next value
  | .error fault => .refuse (.malformed fault)

namespace Plan

variable (graph : Graph) (machine : Target) (plan : Plan)

/-! ## Names -/

def arguments (owner : SymbolId) : List TemplateArg → Script
  | [] => .write []
  | [.pack args] =>
    .append (.write [.text "I"])
      (.append (.concat (args.map fun arg => plan (.argument owner arg))) (.write [.text "E"]))
  | .pack args :: _ :: _ =>
    .refuse (.argument (graph.text owner) (graph.argumentText graph.text (.pack args)) .packNotLast)
  | first :: rest => .append (plan (.argument owner first)) (arguments owner rest)

def generalName (template : SymbolId) (ident : String) : Script :=
  .named (.symbol template) (.write [.source ident])

def sourceName (id : SymbolId) : Script :=
  .ofExcept (graph.symbol id) fun symbol =>
    match symbol.sort with
    | .specialization template args =>
      .append (generalName template symbol.ident) (.append (.write [.text "I"])
        (.append (arguments graph plan id args) (.write [.text "E"])))
    | _ => .write [.source symbol.ident]

def enclosing (level : Level) (scope : SymbolId) : Script :=
  match level.template with
  | some template => .unlessKnown (.symbol template) (plan (.scope scope))
  | none => plan (.scope scope)

/-- A level and all that encloses it. -/
def levelName (level : Level) : Script :=
  match level.scope with
  | some scope => .append (enclosing plan level scope) (sourceName graph plan level.name)
  | none => sourceName graph plan level.name

def scopeName (id : SymbolId) : Script :=
  .named (.symbol id) (.ofExcept (graph.level id) (levelName graph plan))

def qualifiedName (id : SymbolId) : Script :=
  .ofExcept (graph.level id) fun level =>
    if level.scope.isSome then
      .append (.write [.text "N"]) (.append (levelName graph plan level) (.write [.text "E"]))
    else levelName graph plan level

def mention (id : SymbolId) : Script :=
  .compound (.symbol id) (qualifiedName graph plan id)

/-! ## Types -/

def parameter (param : Passing × TypeTree) : Script :=
  if (TypeTree.passed param).isStaticArray then
    .refuse (.type ((TypeTree.passed param).spell graph.text) .arrayByValue)
  else plan (.type (TypeTree.passed param).withoutConst .outermost)

def parameterEnd (isVariadic isEmpty : Bool) : List Token :=
  if isVariadic then [.text "z"] else if isEmpty then [.text "v"] else []

def parameters (params : List (Passing × TypeTree)) (isVariadic : Bool) : Script :=
  .append (.concat (params.map (parameter graph plan)))
    (.write (parameterEnd isVariadic params.isEmpty))

def constMark (isConst : Bool) : List Token := if isConst then [.text "K"] else []

def functionType (result : TypeTree) (params : List (Passing × TypeTree)) (convention : Convention) :
    Script :=
  .append (.write (.text "F" :: if convention.linkage = .c then [.text "Y"] else []))
    (.append (plan (.type (TypeTree.returned convention result) .nested))
      (.append (parameters graph plan params convention.variadic) (.write [.text "E"])))

def namedType (naming : Naming) (symbol : SymbolId) (quals : Qualifiers) (place : Place) :
    Script :=
  let tree : TypeTree := .named naming symbol quals
  match naming with
  | .record | .enumeration _ =>
    .orRef (.type tree) (.thenStoreIf quals.isConst (.type tree)
      (.append (.write (constMark quals.isConst)) (mention graph plan symbol)))
  | .classRef =>
    .compound (.type tree) (.thenStoreIf quals.isConst .unnamed
      (.append (.write ((if place = .nested then constMark quals.isConst else []) ++
        [.text "P"] ++ constMark quals.isConst)) (mention graph plan symbol)))
  | .typedef => .refuse (.type (tree.spell graph.text) .noCounterpart)

def basicType (basic : BasicType) (quals : Qualifiers) : Script :=
  let tokens := constMark quals.isConst ++ [.text (builtin machine basic)]
  if isExtended basic || quals.isConst then .named (.type (.basic basic quals)) (.write tokens)
  else .write tokens

def type (tree : TypeTree) (place : Place) : Script :=
  if tree.isForeign then .refuse (.type (tree.spell graph.text) .foreignQualifiers)
  else
    match tree with
    | .basic basic quals => basicType machine basic quals
    | .layer around inner quals =>
      match around.itaniumLead? quals.isConst with
      | some lead => .compound (.type tree) (.append (.write lead) (plan (.type inner .nested)))
      | none => .refuse (.type (tree.spell graph.text) .noCounterpart)
    | .named naming symbol quals => namedType graph plan naming symbol quals place
    | .assocArray _ _ _ => .refuse (.type (tree.spell graph.text) .noCounterpart)
    | .function result params convention _ =>
      .compound (.type tree) (functionType graph plan result params convention)

/-! ## Declarations -/

def variableName (asArgument : Bool) (id : SymbolId) (symbol : Symbol) (info : VariableInfo) :
    Script :=
  if info.storage.isLinkable then
    .ofExcept (graph.scopeParent id) fun
      | some scope =>
        .append (.write [.text machine.lead, .text "N"]) (.append (plan (.scope scope))
          (.append (sourceName graph plan id) (.write [.text "E"])))
      | none =>
        if asArgument then .append (.write [.text machine.lead]) (sourceName graph plan id)
        else .write (freeVariable machine symbol.ident)
  else .refuse (.storageClass (graph.text id))

def ownName (info : FunctionInfo) (id : SymbolId) : Script :=
  if info.role = .destructor then .write [.text "D1"] else sourceName graph plan id

def functionPath (info : FunctionInfo) (id : SymbolId) : Script :=
  .ofExcept (graph.scopeParent id) fun
    | some scope =>
      .append (.write (.text "N" :: constMark info.isConst)) (.append (plan (.scope scope))
        (.append (ownName graph plan info id) (.write [.text "E"])))
    | none => sourceName graph plan id

def functionName (id : SymbolId) (info : FunctionInfo) : Script :=
  match graph.tree info.type with
  | .function _ params convention _ =>
    .append (.write [.text machine.lead])
      (if convention.linkage = .cpp then
        .append (functionPath graph plan info id) (parameters graph plan params convention.variadic)
      else sourceName graph plan id)
  | tree => .refuse (.type (tree.spell graph.text) .notFunction)

/-- A function as a template argument is an expression where it has a scope and C++ linkage. -/
def functionArgument (id : SymbolId) (info : FunctionInfo) : Script :=
  match graph.tree info.type with
  | .function _ _ convention _ =>
    .ofExcept (graph.scopeParent id) fun scope =>
      let mark := if scope.isSome && convention.linkage == .cpp then [Token.text "X"] else []
      let ending := if scope.isSome && convention.linkage == .cpp then [Token.text "E"] else []
      .append (.write (mark ++ [.text "L"]))
        (.append (functionName graph machine plan id info) (.write (.text "E" :: ending)))
  | tree => .refuse (.type (tree.spell graph.text) .notFunction)

def argument (owner : SymbolId) (arg : TemplateArg) : Script :=
  let refuse (reason : ArgumentReason) : Script :=
    .refuse (.argument (graph.text owner) (graph.argumentText graph.text arg) reason)
  match arg with
  | .type id => plan (.type (graph.tree id) .nested)
  | .value id number =>
    match (graph.tree id).integral? with
    | some basic =>
      .append (.write [.text "L"]) (.append (plan (.type (graph.tree id) .nested))
        (.write (literal basic number ++ [.text "E"])))
    | none => refuse .notIntegral
  | .symbolAlias target =>
    .ofExcept (graph.symbol target) fun symbol =>
      match symbol.sort with
      | .function info => functionArgument graph machine plan target info
      | .var info =>
        .append (.write [.text "L"])
          (.append (variableName graph machine plan true target symbol info) (.write [.text "E"]))
      | .template (some _) => mention graph plan target
      | _ => refuse .aliasTarget
  | .typeAlias _ => refuse .aliasTarget
  | .pack _ => refuse .nestedPack

/-! ## Whole names -/

/-- The script of an item, given the scripts of its parts. -/
def item : Item → Script
  | .scope id => scopeName graph plan id
  | .argument owner arg => argument graph machine plan owner arg
  | .type tree place => type graph machine plan tree place

def within : Nat → Plan
  | 0 => fun _ => .refuse (.malformed .endless)
  | depth + 1 => item graph machine (within depth)

/-- The script of the name of a variable or a function. -/
def declaration (id : SymbolId) : Script :=
  .ofExcept (graph.symbol id) fun symbol =>
    match symbol.sort with
    | .var info => variableName graph machine plan false id symbol info
    | .function info => functionName graph machine plan id info
    | _ => .refuse (.symbolKind (graph.text id) symbol.sort.describe)

end Plan

end Itanium

end LinkName
