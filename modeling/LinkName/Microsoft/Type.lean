import LinkName.Microsoft.Scope

/-!
Types. Qualifiers are spelled below pointers, references and arrays; nested arrays fold into one
with several dimensions.
-/
namespace LinkName.Microsoft

variable {handles : Option Nat} {graph : Graph}
variable (machine : Target) (parts : Encoding graph handles)

/-- The dimensions of an array: how many there are, then each. -/
def dimensions (dims : List Nat) : List Token :=
  .text "Y" :: .number dims.length :: dims.map .number

def width : List Token := if machine.is64Bit then [.text "E"] else []

/-- The qualifier letter of a type. -/
def modifier (node : TypeNode) (place : Place) : List Token :=
  if place.element then []
  else if place.indirect then [.text (if node.isConst then "B" else "A")]
  else if node.isConst && machine.isLegacy && !node.form.isPointer then [.text "_O"]
  else []

def pointerLetter (isConst : Bool) : Token := .text (if isConst then "Q" else "P")

/-- An array below a pointer or a reference, with all its dimensions. -/
def array (id : TypeId) (place : Place) : LimitedEncoder handles graph (List Token) := do
  let node ← Encoder.type id
  let shape ← Encoder.ofExcept ((← get).overlay.shape id)
  return modifier machine node place ++ dimensions shape.1 ++
    (← parts.type shape.2 { place with element := true })

/-- What a reference or an array leads to. -/
def pointee (id : TypeId) (place : Place) : LimitedEncoder handles graph (List Token) := do
  if (← Encoder.type id).form.isStaticArray then array machine parts id place
  else parts.type id place

def parameter (param : Param) : LimitedEncoder handles graph (List Token) := do
  parts.type (← Encoder.passed param) {}

/-- What ends a parameter list. -/
def parameterEnd (signature : Signature) : List Token :=
  [.text (if signature.variadic then "Z" else if signature.params.isEmpty then "X" else "@"),
   .text "Z"]

def parameters (signature : Signature) : LimitedEncoder handles graph (List Token) := do
  return (← Encoder.concat (parameter parts) signature.params) ++ parameterEnd signature

/-- Records and enumerations are marked where they are returned. -/
def resultMark (node : TypeNode) : List Token :=
  match node.form with
  | .record _ | .enumeration _ _ => [.text "?A"]
  | _ => []

/-- The return type. Constructors and destructors have none. -/
def result (isStructor : Bool) (signature : Signature) : LimitedEncoder handles graph (List Token) :=
  if isStructor then pure [.text "@"]
  else do
    let id ← Encoder.derive (·.returned signature)
    let node ← Encoder.type id
    return resultMark node ++ (← parts.type id { returned := true })

/-- The calling convention, return type and parameters of a function type. -/
def functionType (id : TypeId) (needsThis isStructor : Bool) :
    LimitedEncoder handles graph (List Token) := do
  let signature ← Encoder.signature id
  match convention? machine signature.linkage (needsThis && !signature.variadic) with
  | none => Encoder.refuseType id .noConvention
  | some convention =>
    return [.text convention] ++ (← result parts isStructor signature) ++
      (← parameters parts signature)

/-- A pointer. What a signature mentions is recorded before the pointer to it. -/
def pointer (id target : TypeId) (node : TypeNode) (place : Place) :
    LimitedEncoder handles graph (List Token) := do
  match (← Encoder.type target).form with
  | .function _ =>
    let function ← functionType machine parts target false false
    orTypeRef id place (pure ([pointerLetter node.isConst, .text "6"] ++ function))
  | .staticArray _ _ =>
    orTypeRef id place do
      return modifier machine node place ++ [pointerLetter (node.isConst || !machine.isLegacy)] ++
        width machine ++ (← array machine parts target place.below)
  | _ =>
    orTypeRef id place do
      return modifier machine node place ++ [pointerLetter node.isConst] ++ width machine ++
        (← parts.type target place.below)

/-- A builtin type. Only `bool` and the spelled qualifiers are worth recording. -/
def basicType (id : TypeId) (node : TypeNode) (basic : BasicType) (place : Place) :
    LimitedEncoder handles graph (List Token) :=
  match builtin? machine basic with
  | none => Encoder.refuseType id .noBuiltin
  | some code =>
    let tokens := modifier machine node place ++ [.text code]
    if (node.isConst && (place.indirect || machine.isLegacy)) || basic == .bool then
      orTypeRef id place (pure tokens)
    else pure tokens

/-- The code of a record by what its symbol declares. -/
def recordLetter (symbol : Symbol) : String :=
  match symbol.sort with
  | .record .union => recordCode .union
  | _ => recordCode .struct

def enumeration (id : TypeId) (node : TypeNode) (symbol : SymbolId) (base : BasicType)
    (place : Place) : LimitedEncoder handles graph (List Token) :=
  match enumBase? base with
  | none => Encoder.refuseType id .enumBase
  | some code => do
    return modifier machine node place ++ [.text code] ++ (← qualifiedName machine parts symbol)

/-- A class, which is a pointer to its record; `const` applies to both. -/
def classType (node : TypeNode) (symbol : SymbolId) (place : Place) :
    LimitedEncoder handles graph (List Token) := do
  let outer := if place.indirect then modifier machine node place else []
  return outer ++ [pointerLetter node.isConst] ++ width machine ++
    modifier machine node place.below ++ [.text (recordCode .klass)] ++
    (← qualifiedName machine parts symbol)

def type (id : TypeId) (place : Place) : LimitedEncoder handles graph (List Token) := do
  let node ← Encoder.type id
  Encoder.demand (!node.isForeign) (Encoder.refuseType id .foreignQualifiers)
  match node.form with
  | .basic basic => basicType machine id node basic place
  | .vector _ => orTypeRef id place (pure [.text "T__m128@@"])
  | .staticArray _ element =>
    orTypeRef id place do
      return [pointerLetter machine.isLegacy] ++ (← pointee machine parts element place.below)
  | .pointer target => pointer machine parts id target node place
  | .reference target =>
    orTypeRef id place do
      return [.text "A"] ++ width machine ++ (← pointee machine parts target place.below)
  | .record symbol =>
    orTypeRef id place do
      let letter := recordLetter (← Encoder.symbol symbol)
      return modifier machine node place ++ [.text letter] ++ (← qualifiedName machine parts symbol)
  | .enumeration symbol base =>
    orTypeRef id place (enumeration machine parts id node symbol base place)
  | .classRef symbol => orTypeRef id place (classType machine parts node symbol place)
  | .function _ => Encoder.refuseType id .bareFunction
  | .dynamicArray _ | .assocArray _ _ | .delegate _ | .typedef _ =>
    Encoder.refuseType id .noCounterpart

end LinkName.Microsoft
