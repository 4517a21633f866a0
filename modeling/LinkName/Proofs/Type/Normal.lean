import LinkName.Proofs.Type.Unfolding

/-!
When two types are one C++ type. The normal form of a type forgets what C++ does not tell apart at
any depth: which of `wchar` and `ushort` a type is, `const` on references, functions and parameters
passed by value, how a reference came about, and every linkage but that of C.
-/
namespace LinkName

/-- Wide characters are unsigned 16-bit integers to C++. -/
def BasicType.normal : BasicType → BasicType
  | .wchar => .uint16
  | basic => basic

theorem BasicType.normal_normal (basic : BasicType) : basic.normal.normal = basic.normal := by
  cases basic <;> rfl

/-- Only C linkage is told from the others, and a reference result is part of the result. -/
def Convention.normal (convention : Convention) : Convention where
  variadic := convention.variadic
  linkage := if convention.linkage = .c then .c else .cpp

namespace TypeTree

/-- The type in which a parameter is written. -/
def parameter (param : Passing × TypeTree) : TypeTree := (passed param).withoutConst

def normal : TypeTree → TypeTree :=
  fold
    { basic := fun builtin quals => .basic builtin.normal quals
      layer := fun around inner quals =>
        if around = .reference then reference inner else .layer around inner quals
      named := .named
      assocArray := .assocArray
      function := fun result params convention _ =>
        .function (returned convention result) (params.map fun param => (.value, parameter param))
          convention.normal {} }

theorem normal_layer {around : Layer} {inner : TypeTree} {quals : Qualifiers}
    (other : around ≠ .reference) :
    (layer around inner quals).normal = layer around inner.normal quals :=
  if_neg other

theorem normal_reference (inner : TypeTree) (quals : Qualifiers) :
    (layer .reference inner quals).normal = reference inner.normal := rfl

theorem normal_mutable (tree : TypeTree) : tree.mutable.normal = tree.normal.mutable := by
  cases tree with
  | layer around inner quals => cases around <;> rfl
  | function result params convention quals =>
      simp only [mutable, requalified, normal, fold_function]
      rfl
  | _ => rfl

theorem dropsConst_normal (tree : TypeTree) : tree.normal.dropsConst = tree.dropsConst := by
  cases tree with
  | layer around inner quals => cases around <;> rfl
  | function result params convention quals => simp only [normal, fold_function, dropsConst]
  | _ => rfl

theorem normal_withoutConst (tree : TypeTree) :
    tree.withoutConst.normal = tree.normal.withoutConst := by
  unfold withoutConst
  rw [dropsConst_normal]
  split
  · exact normal_mutable tree
  · rfl

theorem normal_passed (passing : Passing) (type : TypeTree) :
    (passed (passing, type)).normal = passed (passing, type.normal) := by
  cases passing <;> rfl

theorem normal_parameter (param : Passing × TypeTree) :
    (parameter param).normal = parameter (param.1, param.2.normal) := by
  rw [parameter, normal_withoutConst, normal_passed, parameter]

theorem normal_returned (convention : Convention) (result : TypeTree) :
    (returned convention result).normal = returned convention result.normal := by
  unfold returned
  split <;> rfl

theorem normal_function (result : TypeTree) (params : List (Passing × TypeTree))
    (convention : Convention) (quals : Qualifiers) :
    (function result params convention quals).normal =
      function (returned convention result).normal
        (params.map fun param => (.value, (parameter param).normal)) convention.normal {} := by
  have folded : (function result params convention quals).normal =
      function (returned convention result.normal)
        (params.map fun param => (.value, parameter (param.1, param.2.normal)))
          convention.normal {} := by
    simp only [normal, fold_function, List.map_map, Function.comp_def]
  simp only [folded, normal_returned, normal_parameter]

end TypeTree

end LinkName
