import LinkName.Decl.BasicType

/-!
Type nodes. A node names its parts by handle, so equal nodes have the same form, the same parts and
the same qualifiers. Only `const` has a C++ spelling; `shared` and `immutable` are foreign to C++.
-/
namespace LinkName

/-- Names a symbol of a graph. -/
structure SymbolId where
  index : Nat
  deriving DecidableEq, Repr

instance : ToString SymbolId := ⟨fun id => "#" ++ toString id.index⟩

/-- Names a type node of a graph, or of the types derived from it. -/
structure TypeId where
  index : Nat
  deriving DecidableEq, Repr

instance : ToString TypeId := ⟨fun id => "%" ++ toString id.index⟩

structure Qualifiers where
  isConst : Bool := false
  isShared : Bool := false
  isImmutable : Bool := false
  deriving DecidableEq, Repr

namespace Qualifiers

def union (left right : Qualifiers) : Qualifiers where
  isConst := left.isConst || right.isConst
  isShared := left.isShared || right.isShared
  isImmutable := left.isImmutable || right.isImmutable

end Qualifiers

inductive Linkage where
  | d
  | c
  | cpp
  | windows
  | pascal
  deriving DecidableEq, Repr

namespace Linkage

def spelling : Linkage → String
  | d => "extern(D)"
  | c => "extern(C)"
  | cpp => "extern(C++)"
  | windows => "extern(Windows)"
  | pascal => "extern(Pascal)"

instance : ToString Linkage := ⟨spelling⟩

end Linkage

/-- How an argument reaches a parameter. -/
inductive Passing where
  | value
  | ref
  | out
  | lazy
  deriving DecidableEq, Repr

structure Param where
  type : TypeId
  passing : Passing := .value
  deriving DecidableEq, Repr

structure Signature where
  result : TypeId
  params : List Param := []
  /-- Ends in `...`. -/
  variadic : Bool := false
  linkage : Linkage := .cpp
  /-- Returns by reference. -/
  refResult : Bool := false
  deriving DecidableEq, Repr

inductive TypeForm where
  | basic (basic : BasicType)
  | pointer (target : TypeId)
  | reference (target : TypeId)
  | staticArray (dim : Nat) (element : TypeId)
  | vector (element : TypeId)
  | function (signature : Signature)
  | record (symbol : SymbolId)
  | enumeration (symbol : SymbolId) (base : BasicType)
  /-- A class with reference semantics; to C++ it is a pointer to the record. -/
  | classRef (symbol : SymbolId)
  | dynamicArray (element : TypeId)
  | assocArray (key value : TypeId)
  | delegate (function : TypeId)
  | typedef (symbol : SymbolId)
  deriving DecidableEq, Repr

namespace TypeForm

def isStaticArray : TypeForm → Bool
  | staticArray _ _ => true
  | _ => false

def isPointer : TypeForm → Bool
  | pointer _ => true
  | _ => false

/-- The integral type in which a value of this type is written as a template argument. -/
def integral? : TypeForm → Option BasicType
  | basic base | enumeration _ base => if base.isIntegral then some base else none
  | _ => none

end TypeForm

structure TypeNode where
  form : TypeForm
  quals : Qualifiers := {}
  deriving DecidableEq, Repr

namespace TypeNode

def isConst (node : TypeNode) : Bool := node.quals.isConst

/-- Whether the node carries a qualifier that C++ does not have. -/
def isForeign (node : TypeNode) : Bool := node.quals.isShared || node.quals.isImmutable

def qualified (node : TypeNode) (quals : Qualifiers) : TypeNode :=
  { node with quals := node.quals.union quals }

/-- Whether the `const` of the node is dropped where it is the outermost type of a parameter. -/
def dropsConst (node : TypeNode) : Bool :=
  match node.form with
  | .basic _ | .enumeration _ _ | .record _ | .pointer _ => node.isConst
  | _ => false

/-- The node without its `const`. -/
def mutable (node : TypeNode) : TypeNode :=
  { node with quals := { node.quals with isConst := false } }

end TypeNode

end LinkName
