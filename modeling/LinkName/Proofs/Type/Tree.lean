import LinkName.Proofs.Graph.Order

/-!
Types without handles. A type tree is a type together with everything that it is made of, down to
builtin types and symbols. Two handles of a graph are equal exactly when their trees are.
-/
namespace LinkName

/-- What one type puts around another. -/
inductive Layer where
  | pointer
  | reference
  | staticArray (dim : Nat)
  | vector
  | dynamicArray
  | delegate
  deriving DecidableEq, Repr

/-- How a type names a symbol. -/
inductive Naming where
  | record
  | enumeration (base : BasicType)
  | classRef
  | typedef
  deriving DecidableEq, Repr

/-- What a signature says besides the types in it. -/
structure Convention where
  variadic : Bool := false
  linkage : Linkage := .cpp
  refResult : Bool := false
  deriving DecidableEq, Repr

inductive TypeTree where
  | basic (builtin : BasicType) (quals : Qualifiers)
  | layer (around : Layer) (inner : TypeTree) (quals : Qualifiers)
  | named (naming : Naming) (symbol : SymbolId) (quals : Qualifiers)
  | assocArray (key value : TypeTree) (quals : Qualifiers)
  | function (result : TypeTree) (params : List (Passing × TypeTree)) (convention : Convention)
      (quals : Qualifiers)
  deriving Repr

instance : Inhabited TypeTree := ⟨.basic .void {}⟩

namespace TypeTree

/-- A type is understood once its parts are. -/
@[elab_as_elim, induction_eliminator]
theorem induction {motive : TypeTree → Prop}
    (basic : ∀ builtin quals, motive (.basic builtin quals))
    (layer : ∀ around inner quals, motive inner → motive (.layer around inner quals))
    (named : ∀ naming symbol quals, motive (.named naming symbol quals))
    (assocArray : ∀ key value quals, motive key → motive value →
      motive (.assocArray key value quals))
    (function : ∀ result params convention quals, motive result →
      (∀ param ∈ params, motive param.2) → motive (.function result params convention quals))
    (tree : TypeTree) : motive tree :=
  @TypeTree.rec motive (fun params => ∀ param ∈ params, motive param.2)
    (fun param => motive param.2) basic layer named assocArray function (by simp)
    (fun _ _ first rest => List.forall_mem_cons.mpr ⟨first, rest⟩) (fun _ _ type => type) tree

/-- One way of putting the results for the parts of a type together. -/
structure Algebra (α : Type) where
  basic : BasicType → Qualifiers → α
  layer : Layer → α → Qualifiers → α
  named : Naming → SymbolId → Qualifiers → α
  assocArray : α → α → Qualifiers → α
  function : α → List (Passing × α) → Convention → Qualifiers → α

section

variable {α : Type}

mutual

def fold (algebra : Algebra α) : TypeTree → α
  | .basic builtin quals => algebra.basic builtin quals
  | .layer around inner quals => algebra.layer around (fold algebra inner) quals
  | .named naming symbol quals => algebra.named naming symbol quals
  | .assocArray key value quals => algebra.assocArray (fold algebra key) (fold algebra value) quals
  | .function result params convention quals =>
    algebra.function (fold algebra result) (foldParams algebra params) convention quals

def foldParams (algebra : Algebra α) : List (Passing × TypeTree) → List (Passing × α)
  | [] => []
  | (passing, first) :: rest => (passing, fold algebra first) :: foldParams algebra rest

end

variable (algebra : Algebra α)

theorem foldParams_eq_map (params : List (Passing × TypeTree)) :
    foldParams algebra params = params.map fun param => (param.1, fold algebra param.2) := by
  induction params with
  | nil => rfl
  | cons first rest ih => simp [foldParams, ih]

theorem fold_function (result : TypeTree) (params : List (Passing × TypeTree))
    (convention : Convention) (quals : Qualifiers) :
    fold algebra (.function result params convention quals) =
      algebra.function (fold algebra result)
        (params.map fun param => (param.1, fold algebra param.2)) convention quals := by
  rw [fold, foldParams_eq_map]

end

mutual

def decideEq : (left right : TypeTree) → Decidable (left = right)
  | .basic builtin quals, .basic builtin' quals' =>
    decidable_of_iff (builtin = builtin' ∧ quals = quals') (by simp)
  | .layer around inner quals, .layer around' inner' quals' =>
    have := decideEq inner inner'
    decidable_of_iff (around = around' ∧ inner = inner' ∧ quals = quals') (by simp)
  | .named naming symbol quals, .named naming' symbol' quals' =>
    decidable_of_iff (naming = naming' ∧ symbol = symbol' ∧ quals = quals') (by simp)
  | .assocArray key value quals, .assocArray key' value' quals' =>
    have := decideEq key key'
    have := decideEq value value'
    decidable_of_iff (key = key' ∧ value = value' ∧ quals = quals') (by simp)
  | .function result params convention quals, .function result' params' convention' quals' =>
    have := decideEq result result'
    have := decideEqParams params params'
    decidable_of_iff
      (result = result' ∧ params = params' ∧ convention = convention' ∧ quals = quals') (by simp)
  | .basic _ _, .layer _ _ _ | .basic _ _, .named _ _ _ | .basic _ _, .assocArray _ _ _
  | .basic _ _, .function _ _ _ _ | .layer _ _ _, .basic _ _ | .layer _ _ _, .named _ _ _
  | .layer _ _ _, .assocArray _ _ _ | .layer _ _ _, .function _ _ _ _
  | .named _ _ _, .basic _ _ | .named _ _ _, .layer _ _ _ | .named _ _ _, .assocArray _ _ _
  | .named _ _ _, .function _ _ _ _ | .assocArray _ _ _, .basic _ _
  | .assocArray _ _ _, .layer _ _ _ | .assocArray _ _ _, .named _ _ _
  | .assocArray _ _ _, .function _ _ _ _ | .function _ _ _ _, .basic _ _
  | .function _ _ _ _, .layer _ _ _ | .function _ _ _ _, .named _ _ _
  | .function _ _ _ _, .assocArray _ _ _ => .isFalse nofun

def decideEqParams : (left right : List (Passing × TypeTree)) → Decidable (left = right)
  | [], [] => .isTrue rfl
  | [], _ :: _ | _ :: _, [] => .isFalse nofun
  | (passing, first) :: rest, (passing', first') :: rest' =>
    have := decideEq first first'
    have := decideEqParams rest rest'
    decidable_of_iff (passing = passing' ∧ first = first' ∧ rest = rest') (by simp [and_assoc])

end

instance : DecidableEq TypeTree := decideEq

/-! ## Qualifiers and derived types -/

def quals : TypeTree → Qualifiers
  | .basic _ quals | .layer _ _ quals | .named _ _ quals | .assocArray _ _ quals
  | .function _ _ _ quals => quals

def isConst (tree : TypeTree) : Bool := tree.quals.isConst

/-- Whether the type carries a qualifier that C++ does not have. -/
def isForeign (tree : TypeTree) : Bool := tree.quals.isShared || tree.quals.isImmutable

/-- The same type with other qualifiers. -/
def requalified (quals : Qualifiers) : TypeTree → TypeTree
  | .basic builtin _ => .basic builtin quals
  | .layer around inner _ => .layer around inner quals
  | .named naming symbol _ => .named naming symbol quals
  | .assocArray key value _ => .assocArray key value quals
  | .function result params convention _ => .function result params convention quals

/-- The type without its `const`. -/
def mutable (tree : TypeTree) : TypeTree :=
  tree.requalified { tree.quals with isConst := false }

/-- Whether the `const` of the type is dropped where it is the outermost type of a parameter. -/
def dropsConst : TypeTree → Bool
  | .basic _ quals | .layer .pointer _ quals | .named .record _ quals
  | .named (.enumeration _) _ quals => quals.isConst
  | _ => false

/-- The type itself or, where its outermost `const` is dropped, the type without it. -/
def withoutConst (tree : TypeTree) : TypeTree := if tree.dropsConst then tree.mutable else tree

def isStaticArray : TypeTree → Bool
  | .layer (.staticArray _) _ _ => true
  | _ => false

def isPointer : TypeTree → Bool
  | .layer .pointer _ _ => true
  | _ => false

def reference (target : TypeTree) : TypeTree := .layer .reference target {}

/-- A pointer to a C++ function without parameters. -/
def thunk (result : TypeTree) : TypeTree := .layer .pointer (.function result [] {} {}) {}

/-- The integral type in which a value of this type is written as a template argument. -/
def integral? : TypeTree → Option BasicType
  | .basic base _ | .named (.enumeration base) _ _ => if base.isIntegral then some base else none
  | _ => none

/-- The C++ type of a parameter. -/
def passed : Passing × TypeTree → TypeTree
  | (.value, type) => type
  | (.ref, type) | (.out, type) => reference type
  | (.lazy, type) => thunk type

/-- The C++ type that a function returns. -/
def returned (convention : Convention) (result : TypeTree) : TypeTree :=
  if convention.refResult then reference result else result

end TypeTree

/-! ## Trees of nodes -/

def Signature.convention (signature : Signature) : Convention where
  variadic := signature.variadic
  linkage := signature.linkage
  refResult := signature.refResult

namespace TypeNode

/-- The tree of a node, given those of its parts. -/
def tree (part : TypeId → TypeTree) (node : TypeNode) : TypeTree :=
  match node.form with
  | .basic basic => .basic basic node.quals
  | .pointer target => .layer .pointer (part target) node.quals
  | .reference target => .layer .reference (part target) node.quals
  | .staticArray dim element => .layer (.staticArray dim) (part element) node.quals
  | .vector element => .layer .vector (part element) node.quals
  | .dynamicArray element => .layer .dynamicArray (part element) node.quals
  | .delegate function => .layer .delegate (part function) node.quals
  | .function signature =>
    .function (part signature.result)
      (signature.params.map fun param => (param.passing, part param.type)) signature.convention
      node.quals
  | .record symbol => .named .record symbol node.quals
  | .enumeration symbol base => .named (.enumeration base) symbol node.quals
  | .classRef symbol => .named .classRef symbol node.quals
  | .typedef symbol => .named .typedef symbol node.quals
  | .assocArray key value => .assocArray (part key) (part value) node.quals

variable {part part' : TypeId → TypeTree} {node node' : TypeNode}

theorem tree_congr (alike : ∀ id ∈ node.form.parts, part id = part' id) :
    node.tree part = node.tree part' := by
  rcases node with ⟨form, quals⟩
  cases form
  case basic | record | enumeration | classRef | typedef => rfl
  case function signature =>
    have result := alike signature.result List.mem_cons_self
    have params : (signature.params.map fun param => (param.passing, part param.type)) =
        signature.params.map fun param => (param.passing, part' param.type) :=
      List.map_congr_left fun param listed => by
        rw [alike param.type (List.mem_cons_of_mem _ (List.mem_map_of_mem listed))]
    simp only [tree, result, params]
  case assocArray key value =>
    simp only [tree, alike key (by simp [TypeForm.parts]), alike value (by simp [TypeForm.parts])]
  all_goals exact congrArg (TypeTree.layer _ · quals) (alike _ List.mem_cons_self)

theorem params_injective {params params' : List Param}
    (parts : ∀ param ∈ params, ∀ param' ∈ params',
      part param.type = part' param'.type → param.type = param'.type)
    (same : (params.map fun param => (param.passing, part param.type)) =
      params'.map fun param => (param.passing, part' param.type)) : params = params' := by
  induction params generalizing params' with
  | nil =>
      cases params' with
      | nil => rfl
      | cons => simp at same
  | cons first rest ih =>
      cases params' with
      | nil => simp at same
      | cons first' rest' =>
          simp only [List.map_cons, List.cons.injEq, Prod.mk.injEq] at same
          obtain ⟨⟨passing, type⟩, others⟩ := same
          have head : first = first' := by
            have := parts first (by simp) first' (by simp) type
            cases first
            simp_all
          rw [head, ih (fun param listed param' listed' =>
            parts param (by simp [listed]) param' (by simp [listed'])) others]

/-- A node is known from its tree if its parts are known from theirs. -/
theorem tree_injective
    (parts : ∀ id ∈ node.form.parts, ∀ id' ∈ node'.form.parts, part id = part' id' → id = id')
    (same : node.tree part = node'.tree part') : node = node' := by
  rcases node with ⟨form, quals⟩
  rcases node' with ⟨form', quals'⟩
  cases form <;> cases form' <;>
    simp only [tree, TypeTree.layer.injEq, TypeTree.basic.injEq, TypeTree.named.injEq,
      TypeTree.assocArray.injEq, TypeTree.function.injEq, reduceCtorEq, false_and, true_and,
      Layer.staticArray.injEq, Naming.enumeration.injEq] at same
  case function.function signature signature' =>
    obtain ⟨result, params, convention, rfl⟩ := same
    have result := parts _ (by simp [TypeForm.parts]) _ (by simp [TypeForm.parts]) result
    have params := params_injective (fun param listed param' listed' =>
      parts param.type (by simp [TypeForm.parts]; exact .inr ⟨param, listed, rfl⟩)
        param'.type (by simp [TypeForm.parts]; exact .inr ⟨param', listed', rfl⟩)) params
    rcases signature with ⟨first, listed, variadic, linkage, refResult⟩
    rcases signature' with ⟨first', listed', variadic', linkage', refResult'⟩
    simp_all [Signature.convention]
  all_goals simp_all [TypeForm.parts]

@[simp] theorem quals_tree : (node.tree part).quals = node.quals := by
  rcases node with ⟨form, quals⟩
  cases form <;> rfl

theorem isForeign_tree : (node.tree part).isForeign = node.isForeign := by
  simp [TypeTree.isForeign, isForeign]

theorem isConst_tree : (node.tree part).isConst = node.isConst := by
  simp [TypeTree.isConst, isConst]

theorem dropsConst_tree : (node.tree part).dropsConst = node.dropsConst := by
  rcases node with ⟨form, quals⟩
  cases form <;> rfl

theorem isStaticArray_tree : (node.tree part).isStaticArray = node.form.isStaticArray := by
  rcases node with ⟨form, quals⟩
  cases form <;> rfl

theorem isPointer_tree : (node.tree part).isPointer = node.form.isPointer := by
  rcases node with ⟨form, quals⟩
  cases form <;> rfl

theorem integral?_tree : (node.tree part).integral? = node.form.integral? := by
  rcases node with ⟨form, quals⟩
  cases form <;> rfl

theorem mutable_tree : node.mutable.tree part = (node.tree part).mutable := by
  rcases node with ⟨form, quals⟩
  cases form <;> simp [TypeTree.mutable, TypeTree.requalified, TypeNode.mutable, tree, TypeTree.quals]

end TypeNode

end LinkName
