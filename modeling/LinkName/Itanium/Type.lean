import LinkName.Itanium.Declaration

/-!
Types. All but the plain builtin types can be referred back to, and a type takes its slot after all
the slots of its parts.
-/
namespace LinkName.Itanium

variable {handles : Option Nat} {graph : Graph}
variable (machine : Target) (parts : Encoding graph handles)

/-- A type that takes its slot when it is complete. -/
def compound (id : TypeId) (write : LimitedEncoder handles graph (List Token)) :
    LimitedEncoder handles graph (List Token) :=
  orBackRef (.type id) (thenStore (.type id) write)

def constMark (node : TypeNode) : List Token := if node.isConst then [.text "K"] else []

def basicType (id : TypeId) (node : TypeNode) (basic : BasicType) :
    LimitedEncoder handles graph (List Token) :=
  let tokens := constMark node ++ [.text (builtin machine basic)]
  if isExtended basic || node.isConst then
    orBackRef (.type id) (storeThen (.type id) (pure tokens))
  else pure tokens

def functionType (id : TypeId) (signature : Signature) :
    LimitedEncoder handles graph (List Token) :=
  compound id do
    let external := if signature.linkage = .c then [.text "Y"] else []
    let result ← Encoder.derive (·.returned signature)
    return [.text "F"] ++ external ++ (← parts.type result .nested) ++
      (← parameters parts signature) ++ [.text "E"]

/-- A record or an enumeration. Its name has a slot of its own, so only a const one takes
another. -/
def namedType (id : TypeId) (node : TypeNode) (symbol : SymbolId) :
    LimitedEncoder handles graph (List Token) :=
  orBackRef (.type id) do
    let name ← mention parts symbol
    storeIf node.isConst (.type id)
    return constMark node ++ name

/-- A class, which is a pointer to its record. The const record below takes a slot as well. -/
def classType (id : TypeId) (node : TypeNode) (symbol : SymbolId) (place : Place) :
    LimitedEncoder handles graph (List Token) :=
  compound id do
    let name ← mention parts symbol
    storeIf node.isConst .unnamed
    let outer := if place = .nested then constMark node else []
    return outer ++ [.text "P"] ++ constMark node ++ name

def type (id : TypeId) (place : Place) : LimitedEncoder handles graph (List Token) := do
  let node ← Encoder.type id
  Encoder.demand (!node.isForeign) (Encoder.refuseType id .foreignQualifiers)
  match node.form with
  | .basic basic => basicType machine id node basic
  | .vector element =>
    compound id do return constMark node ++ [.text "U8__vector"] ++ (← parts.type element .nested)
  | .staticArray dim element =>
    compound id do
      return constMark node ++ [.text "A", .number dim, .text "_"] ++ (← parts.type element .nested)
  | .pointer target =>
    compound id do return constMark node ++ [.text "P"] ++ (← parts.type target .nested)
  | .reference target => compound id do return [.text "R"] ++ (← parts.type target .nested)
  | .function signature => functionType parts id signature
  | .record symbol | .enumeration symbol _ => namedType parts id node symbol
  | .classRef symbol => classType parts id node symbol place
  | .dynamicArray _ | .assocArray _ _ | .delegate _ | .typedef _ =>
    Encoder.refuseType id .noCounterpart

end LinkName.Itanium
