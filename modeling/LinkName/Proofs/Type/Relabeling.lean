import LinkName.Proofs.Type.Spelling

/-!
Other names for symbols. Replacing the symbols of a type changes nothing else about it: qualifiers,
derived types, array shapes and, where the symbols keep their texts, the spelling go with it.
-/
namespace LinkName.TypeTree

/-- The same type with other names for symbols. -/
def relabel (label : SymbolId → SymbolId) : TypeTree → TypeTree :=
  fold
    { basic := .basic
      layer := .layer
      named := fun naming symbol quals => .named naming (label symbol) quals
      assocArray := .assocArray
      function := .function }

variable {label : SymbolId → SymbolId}

@[simp] theorem relabel_basic (builtin : BasicType) (quals : Qualifiers) :
    (basic builtin quals).relabel label = .basic builtin quals := rfl

@[simp] theorem relabel_layer (around : Layer) (inner : TypeTree) (quals : Qualifiers) :
    (layer around inner quals).relabel label = .layer around (inner.relabel label) quals := rfl

@[simp] theorem relabel_named (naming : Naming) (symbol : SymbolId) (quals : Qualifiers) :
    (named naming symbol quals).relabel label = .named naming (label symbol) quals := rfl

@[simp] theorem relabel_assocArray (key value : TypeTree) (quals : Qualifiers) :
    (assocArray key value quals).relabel label =
      .assocArray (key.relabel label) (value.relabel label) quals := rfl

@[simp] theorem relabel_function (result : TypeTree) (params : List (Passing × TypeTree))
    (convention : Convention) (quals : Qualifiers) :
    (function result params convention quals).relabel label =
      .function (result.relabel label) (params.map fun param => (param.1, param.2.relabel label))
        convention quals :=
  fold_function _ _ _ _ _

theorem relabel_id (tree : TypeTree) : tree.relabel (fun symbol => symbol) = tree := by
  induction tree with
  | basic | named => rfl
  | layer around inner quals ih => rw [relabel_layer, ih]
  | assocArray key value quals ih ih' => rw [relabel_assocArray, ih, ih']
  | function result params convention quals ih ihs =>
      have same : params.map (fun param => (param.1, param.2.relabel fun symbol => symbol)) =
          params :=
        (List.map_congr_left fun param listed => by rw [ihs param listed]).trans params.map_id'
      rw [relabel_function, ih, same]

theorem relabel_injective (injective : Function.Injective label) :
    Function.Injective (relabel label) := by
  intro tree tree' same
  induction tree generalizing tree' with
  | basic builtin quals => cases tree' <;> simp_all
  | named naming symbol quals =>
      cases tree' <;> simp_all
      exact injective same.2.1
  | layer around inner quals ih =>
      cases tree' with
      | layer around' inner' quals' =>
          simp only [relabel_layer, layer.injEq] at same ⊢
          exact ⟨same.1, ih same.2.1, same.2.2⟩
      | _ => simp at same
  | assocArray key value quals ih ih' =>
      cases tree' with
      | assocArray key' value' quals' =>
          simp only [relabel_assocArray, assocArray.injEq] at same ⊢
          exact ⟨ih same.1, ih' same.2.1, same.2.2⟩
      | _ => simp at same
  | function result params convention quals ih ihs =>
      cases tree' with
      | function result' params' convention' quals' =>
          simp only [relabel_function, function.injEq] at same ⊢
          refine ⟨ih same.1, ?_, same.2.2⟩
          have alike := same.2.1
          clear same
          induction params generalizing params' with
          | nil => cases params' <;> simp_all
          | cons first rest further =>
              cases params' with
              | nil => simp at alike
              | cons first' rest' =>
                  simp only [List.map_cons, List.cons.injEq, Prod.mk.injEq] at alike
                  have head := ihs first List.mem_cons_self alike.1.2
                  have tail := further (fun param listed => ihs param (List.mem_cons_of_mem _ listed))
                    rest' alike.2
                  rw [tail, Prod.ext alike.1.1 head]
      | _ => simp at same

theorem quals_relabel (tree : TypeTree) : (tree.relabel label).quals = tree.quals := by
  cases tree <;> simp [quals]

theorem isForeign_relabel (tree : TypeTree) : (tree.relabel label).isForeign = tree.isForeign := by
  simp [isForeign, quals_relabel]

theorem isConst_relabel (tree : TypeTree) : (tree.relabel label).isConst = tree.isConst := by
  simp [isConst, quals_relabel]

theorem isStaticArray_relabel (tree : TypeTree) :
    (tree.relabel label).isStaticArray = tree.isStaticArray := by
  cases tree with
  | layer around => cases around <;> rfl
  | function => simp [isStaticArray]
  | _ => rfl

theorem isPointer_relabel (tree : TypeTree) : (tree.relabel label).isPointer = tree.isPointer := by
  cases tree with
  | layer around => cases around <;> rfl
  | function => simp [isPointer]
  | _ => rfl

theorem dropsConst_relabel (tree : TypeTree) :
    (tree.relabel label).dropsConst = tree.dropsConst := by
  cases tree with
  | layer around => cases around <;> rfl
  | named naming => cases naming <;> rfl
  | function => simp [dropsConst]
  | _ => rfl

theorem integral?_relabel (tree : TypeTree) :
    (tree.relabel label).integral? = tree.integral? := by
  cases tree with
  | named naming => cases naming <;> rfl
  | function => simp [integral?]
  | _ => rfl

theorem mutable_relabel (tree : TypeTree) :
    (tree.relabel label).mutable = tree.mutable.relabel label := by
  cases tree <;> simp [mutable, requalified, quals]

theorem withoutConst_relabel (tree : TypeTree) :
    (tree.relabel label).withoutConst = tree.withoutConst.relabel label := by
  unfold withoutConst
  rw [dropsConst_relabel, mutable_relabel]
  split <;> rfl

theorem passed_relabel (param : Passing × TypeTree) :
    passed (param.1, param.2.relabel label) = (passed param).relabel label := by
  rcases param with ⟨passing, type⟩
  cases passing <;> simp [passed, reference, thunk]

theorem returned_relabel (convention : Convention) (result : TypeTree) :
    returned convention (result.relabel label) = (returned convention result).relabel label := by
  unfold returned
  split <;> simp [reference]

theorem shape_relabel (tree : TypeTree) :
    (tree.relabel label).shape = (tree.shape.1, tree.shape.2.relabel label) := by
  induction tree with
  | layer around inner quals ih => cases around <;> simp [shape, ih]
  | _ => simp [shape]

theorem fold_wording_relabel (symbol : SymbolId → String) (tree : TypeTree) :
    (tree.relabel label).fold (wording symbol) = tree.fold (wording (symbol ∘ label)) := by
  induction tree with
  | basic | named => rfl
  | layer around inner quals ih => simp only [relabel_layer, fold, ih]; rfl
  | assocArray key value quals ih ih' => simp only [relabel_assocArray, fold, ih, ih']; rfl
  | function result params convention quals ih ihs =>
      have params : params.map (fun param => (param.1, (param.2.relabel label).fold (wording symbol))) =
          params.map fun param => (param.1, param.2.fold (wording (symbol ∘ label))) :=
        List.map_congr_left fun param listed => by rw [ihs param listed]
      simp only [relabel_function, fold_function, ih, List.map_map, Function.comp_def, params]
      rfl

theorem spell_relabel (symbol : SymbolId → String) (tree : TypeTree) :
    (tree.relabel label).spell symbol = tree.spell (symbol ∘ label) :=
  congrArg Wording.text (fold_wording_relabel symbol tree)

end LinkName.TypeTree
