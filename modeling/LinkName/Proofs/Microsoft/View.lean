import LinkName.Proofs.Microsoft.Marks

/-!
What the Microsoft scheme sees of a type. The qualifiers of an array or a function that something
points to are never looked at, nor is what a vector is made of. An accepted type has only nodes with a
counterpart in C++ in view, and types that look alike are accepted alike.
-/
namespace LinkName

def Qualifiers.isForeign (quals : Qualifiers) : Bool := quals.isShared || quals.isImmutable

namespace TypeTree

/-- Whether C++ has no counterpart for some node of the type. -/
def hasDOnly : TypeTree → Bool :=
  fold
    { basic := fun _ quals => quals.isForeign
      layer := fun around inner quals =>
        quals.isForeign || around = .dynamicArray || around = .delegate || inner
      named := fun naming _ quals => quals.isForeign || naming = .typedef
      assocArray := fun _ _ _ => true
      function := fun result params _ quals =>
        quals.isForeign || result || params.any fun param => param.2 }

/-- An array or a function as it is seen through something that points to it. -/
def overlooked : TypeTree → TypeTree
  | .layer (.staticArray dim) inner quals =>
    .layer (.staticArray dim) inner { quals with isShared := false, isImmutable := false }
  | .function result params convention quals =>
    .function result params convention { quals with isShared := false, isImmutable := false }
  | tree => tree

def seenThrough (passing : Passing) (tree : TypeTree) : TypeTree :=
  match passing with
  | .ref | .out => tree.overlooked
  | .value | .lazy => tree

/-- The type without what the scheme does not look at. -/
def inView : TypeTree → TypeTree :=
  fold
    { basic := .basic
      layer := fun around inner quals =>
        if around = .vector then .layer .vector (.basic .void {}) quals
        else .layer around inner.overlooked quals
      named := .named
      assocArray := .assocArray
      function := fun result params convention quals =>
        .function (if convention.refResult then result.overlooked else result)
          (params.map fun param => (param.1, seenThrough param.1 param.2)) convention quals }

@[simp] theorem overlooked_function (result : TypeTree) (params : List (Passing × TypeTree))
    (convention : Convention) (quals : Qualifiers) :
    (function result params convention quals).overlooked =
      .function result params convention { quals with isShared := false, isImmutable := false } :=
  rfl

/-! ## Nodes without a counterpart -/

@[simp] theorem hasDOnly_layer (around : Layer) (inner : TypeTree) (quals : Qualifiers) :
    (layer around inner quals).hasDOnly =
      (quals.isForeign || around = .dynamicArray || around = .delegate || inner.hasDOnly) := rfl

@[simp] theorem hasDOnly_function (result : TypeTree) (params : List (Passing × TypeTree))
    (convention : Convention) (quals : Qualifiers) :
    (function result params convention quals).hasDOnly =
      (quals.isForeign || result.hasDOnly || params.any fun param => param.2.hasDOnly) := by
  simp [hasDOnly, fold_function, List.any_map, Function.comp_def]

theorem hasDOnly_of_overlooked {tree : TypeTree} (clean : tree.hasDOnly = false) :
    tree.overlooked.hasDOnly = false := by
  unfold overlooked
  split
  · simp only [hasDOnly_layer, Bool.or_eq_false_iff] at clean
    simp [Qualifiers.isForeign, clean]
  · simp only [hasDOnly_function, Bool.or_eq_false_iff] at clean
    simp only [hasDOnly_function, clean, Qualifiers.isForeign, Bool.or_self]
  · exact clean

/-! ## Views -/

@[simp] theorem inView_vector (inner : TypeTree) (quals : Qualifiers) :
    (layer .vector inner quals).inView = .layer .vector (.basic .void {}) quals := rfl

theorem inView_layer {around : Layer} (apart : around ≠ .vector) (inner : TypeTree)
    (quals : Qualifiers) :
    (layer around inner quals).inView = .layer around inner.inView.overlooked quals :=
  if_neg apart

@[simp] theorem inView_function (result : TypeTree) (params : List (Passing × TypeTree))
    (convention : Convention) (quals : Qualifiers) :
    (function result params convention quals).inView =
      .function (if convention.refResult then result.inView.overlooked else result.inView)
        (params.map fun param => (param.1, seenThrough param.1 param.2.inView)) convention quals := by
  simp [inView, fold_function, List.map_map, Function.comp_def]

theorem inView_returned (convention : Convention) (result : TypeTree) :
    (returned convention result).inView =
      returned convention
        (if convention.refResult then result.inView.overlooked else result.inView) := by
  unfold returned
  split <;> rfl

theorem inView_passed (param : Passing × TypeTree) :
    (passed param).inView = passed (param.1, seenThrough param.1 param.2.inView) := by
  rcases param with ⟨passing, type⟩
  cases passing with
  | value => rfl
  | ref | out => rfl
  | lazy =>
      have function : (function type [] {} {}).inView = function type.inView [] {} {} := by simp
      exact congrArg (fun seen => layer .pointer seen.overlooked {}) function

theorem isStaticArray_inView (tree : TypeTree) : tree.inView.isStaticArray = tree.isStaticArray := by
  cases tree with
  | layer around inner quals =>
      cases around <;> rfl
  | function => simp [isStaticArray]
  | _ => rfl

/-- The elements of an array are seen as what points to them sees them. -/
theorem shape_overlooked_inView (tree : TypeTree) :
    tree.inView.overlooked.shape.2 = tree.shape.2.inView.overlooked := by
  induction tree with
  | layer around inner quals ih =>
      cases around with
      | staticArray dim => exact ih
      | _ => rfl
  | function => simp [shape]
  | _ => rfl

theorem hasDOnly_overlooked_inView (tree : TypeTree) :
    tree.inView.overlooked.hasDOnly = tree.shape.2.inView.overlooked.hasDOnly := by
  induction tree with
  | layer around inner quals ih =>
      cases around with
      | staticArray dim => exact ih
      | _ => rfl
  | _ => rfl

/-- Neither an array nor a function. -/
def isData (tree : TypeTree) : Bool :=
  match tree with
  | .layer (.staticArray _) _ _ | .function _ _ _ _ => false
  | _ => true

theorem overlooked_of_isData {tree : TypeTree} (data : tree.isData = true) :
    tree.overlooked = tree := by
  unfold overlooked
  split <;> first | rfl | cases data

theorem isData_overlooked (tree : TypeTree) : tree.overlooked.isData = tree.isData := by
  unfold overlooked
  split <;> rfl

theorem isData_inView (tree : TypeTree) : tree.inView.isData = tree.isData := by
  cases tree with
  | layer around inner quals => cases around <;> rfl
  | function => simp [isData]
  | _ => rfl

theorem hasDOnly_returned (convention : Convention) (result : TypeTree) :
    (returned convention result).hasDOnly = result.hasDOnly := by
  unfold returned
  split <;> rfl

theorem hasDOnly_passed (param : Passing × TypeTree) : (passed param).hasDOnly = param.2.hasDOnly := by
  rcases param with ⟨passing, type⟩
  cases passing with
  | lazy =>
      have function : (function type [] {} {}).hasDOnly = type.hasDOnly := by
        simp [Qualifiers.isForeign]
      exact function
  | _ => rfl

/-! ## Types that look alike -/

section

variable {tree : TypeTree} {quals : Qualifiers}

theorem eq_basic_of_inView {builtin : BasicType} (same : tree.inView = .basic builtin quals) :
    tree = .basic builtin quals := by
  cases tree with
  | layer around => cases around <;> cases same
  | assocArray => cases same
  | function => simp at same
  | _ => exact same

theorem eq_named_of_inView {naming : Naming} {symbol : SymbolId}
    (same : tree.inView = .named naming symbol quals) : tree = .named naming symbol quals := by
  cases tree with
  | layer around => cases around <;> cases same
  | assocArray => cases same
  | function => simp at same
  | _ => exact same

theorem eq_layer_of_inView {around : Layer} {inner : TypeTree}
    (same : tree.inView = .layer around inner quals) :
    ∃ inner', tree = .layer around inner' quals ∧
      (around ≠ .vector → inner'.inView.overlooked = inner) := by
  cases tree with
  | layer around' inner' quals' =>
      by_cases vector : around' = .vector
      · subst vector
        cases same
        exact ⟨inner', rfl, fun apart => absurd rfl apart⟩
      · rw [inView_layer vector] at same
        cases same
        exact ⟨inner', rfl, fun _ => rfl⟩
  | function => simp at same
  | _ => cases same

theorem eq_function_of_inView {result : TypeTree} {params : List (Passing × TypeTree)}
    {convention : Convention}
    (same : tree.inView.overlooked = (function result params convention quals).inView.overlooked) :
    ∃ result' params' quals', tree = .function result' params' convention quals' ∧
      (returned convention result').inView = (returned convention result).inView ∧
      (params'.map fun param => (passed param).inView) =
        params.map fun param => (passed param).inView := by
  cases tree with
  | function result' params' convention' quals' =>
      simp only [inView_function, overlooked_function, function.injEq] at same
      obtain ⟨results, listed, rfl, -⟩ := same
      refine ⟨result', params', quals', rfl, ?_, ?_⟩
      · rw [inView_returned, inView_returned, results]
      · have alike := congrArg (List.map passed) listed
        simpa only [List.map_map, Function.comp_def, ← inView_passed] using alike
  | layer around => cases around <;> simp [overlooked, inView_layer] at same
  | _ => simp [overlooked] at same; cases same

end

end TypeTree

/-! ## Accepted types -/

namespace Microsoft

/-- The types that are written, if it is known which names can be. -/
inductive Accepted (machine : Target) (named : Naming → SymbolId → Prop) : TypeTree → Prop
  | basic {basic : BasicType} {quals : Qualifiers} (native : quals.isForeign = false)
      (known : (builtin? machine basic).isSome) : Accepted machine named (.basic basic quals)
  | vector {inner : TypeTree} {quals : Qualifiers} (native : quals.isForeign = false) :
      Accepted machine named (.layer .vector inner quals)
  | indirect {around : Layer} {inner : TypeTree} {quals : Qualifiers}
      (native : quals.isForeign = false) (points : (around.isIndirection || around.isArray) = true)
      (below : Accepted machine named inner.shape.2) : Accepted machine named (.layer around inner quals)
  | callback {result : TypeTree} {params : List (Passing × TypeTree)} {convention : Convention}
      {quals further : Qualifiers} (native : quals.isForeign = false)
      (called : (convention? machine convention.linkage false).isSome)
      (returned : Accepted machine named (TypeTree.returned convention result))
      (each : ∀ param ∈ params, Accepted machine named (TypeTree.passed param))
      (passed : ∀ param ∈ params, (TypeTree.passed param).isStaticArray = false) :
      Accepted machine named (.layer .pointer (.function result params convention further) quals)
  | named {naming : Naming} {symbol : SymbolId} {quals : Qualifiers}
      (native : quals.isForeign = false) (known : named naming symbol) :
      Accepted machine named (.named naming symbol quals)

namespace Accepted

variable {machine : Target} {named : Naming → SymbolId → Prop} {tree : TypeTree}

theorem isData (accepted : Accepted machine named tree) (single : tree.isStaticArray = false) :
    tree.isData = true := by
  cases accepted with
  | @indirect around inner quals => cases around <;> first | rfl | cases single
  | _ => rfl

/-- Whatever is accepted has only nodes with a counterpart in view. -/
theorem hasDOnly_inView (accepted : Accepted machine named tree)
    (typedefs : ∀ symbol, ¬ named .typedef symbol) : tree.inView.hasDOnly = false := by
  induction accepted with
  | basic native => exact native
  | vector native =>
      have void : (TypeTree.basic .void {}).hasDOnly = false := rfl
      simp [native, void]
  | @indirect around inner quals native points below ih =>
      have inside : inner.inView.overlooked.hasDOnly = false := by
        rw [TypeTree.hasDOnly_overlooked_inView]
        exact TypeTree.hasDOnly_of_overlooked ih
      rw [TypeTree.inView_layer (by rintro rfl; cases points), TypeTree.hasDOnly_layer, native, inside]
      cases around <;> first | rfl | cases points
  | @callback result params convention quals further native called returned each passed ih listed =>
      rw [TypeTree.inView_returned, TypeTree.hasDOnly_returned] at ih
      have others : (params.any fun param =>
          (TypeTree.seenThrough param.1 param.2.inView).hasDOnly) = false := by
        rw [List.any_eq_false]
        intro param known
        have seen := listed param known
        rw [TypeTree.inView_passed, TypeTree.hasDOnly_passed] at seen
        simp [seen]
      have signature :
          (TypeTree.function result params convention further).inView.overlooked.hasDOnly = false := by
        simp [Qualifiers.isForeign, ih, List.any_map, Function.comp_def, others]
      show (quals.isForeign || _ || _ || _) = false
      rw [native]
      exact signature
  | @named naming symbol quals native known =>
      show (quals.isForeign || _) = false
      rw [native]
      have spelled : naming ≠ .typedef := fun same => typedefs symbol (same ▸ known)
      simp [spelled]

/-- Types that look alike are accepted alike. -/
theorem of_inView {tree' : TypeTree} (accepted : Accepted machine named tree)
    (same : tree'.inView = tree.inView) : Accepted machine named tree' := by
  induction accepted generalizing tree' with
  | basic native known =>
      rw [TypeTree.eq_basic_of_inView same]
      exact .basic native known
  | vector native =>
      obtain ⟨inner, rfl, -⟩ := TypeTree.eq_layer_of_inView same
      exact .vector native
  | @indirect around inner quals native points below ih =>
      have plain : around ≠ .vector := by
        rintro rfl
        cases points
      rw [TypeTree.inView_layer plain] at same
      obtain ⟨inner', rfl, alike⟩ := TypeTree.eq_layer_of_inView same
      refine .indirect native points (ih ?_)
      have data := below.isData inner.isStaticArray_shape
      have elements := congrArg (fun tree => tree.shape.2) (alike plain)
      simp only [TypeTree.shape_overlooked_inView] at elements
      have data' : inner'.shape.2.isData = true := by
        rw [← TypeTree.isData_inView, ← TypeTree.isData_overlooked, elements,
          TypeTree.isData_overlooked, TypeTree.isData_inView, data]
      rwa [TypeTree.overlooked_of_isData, TypeTree.overlooked_of_isData] at elements
      · rwa [TypeTree.isData_inView]
      · rwa [TypeTree.isData_inView]
  | @callback result params convention quals further native called returned each passed ih listed =>
      obtain ⟨inner', rfl, alike⟩ := TypeTree.eq_layer_of_inView same
      obtain ⟨result', params', further', rfl, results, alike⟩ :=
        TypeTree.eq_function_of_inView (alike nofun)
      have partner : ∀ param' ∈ params', ∃ param ∈ params,
          (TypeTree.passed param').inView = (TypeTree.passed param).inView := by
        intro param' known
        have mapped := List.mem_map_of_mem known (f := fun param => (TypeTree.passed param).inView)
        rw [alike] at mapped
        obtain ⟨param, known, same⟩ := List.mem_map.mp mapped
        exact ⟨param, known, same.symm⟩
      refine .callback native called (ih results) (fun param' known => ?_) fun param' known => ?_
      · obtain ⟨param, known, same⟩ := partner param' known
        exact listed param known same
      · obtain ⟨param, known, same⟩ := partner param' known
        rw [← TypeTree.isStaticArray_inView, same, TypeTree.isStaticArray_inView, passed param known]
  | named native known =>
      rw [TypeTree.eq_named_of_inView same]
      exact .named native known

end Accepted

end Microsoft

end LinkName
