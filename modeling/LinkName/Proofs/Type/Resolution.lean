import LinkName.Proofs.Type.Weight

/-!
Classes as pointers. A type is resolved when each class in it, which is passed by reference, is
replaced by a pointer to the record of the class, and a const class by a const pointer to the const
record. Where no symbol is named both ways, the type can be told from what it is resolved to.
-/
namespace LinkName.TypeTree

/-- A pointer to a record, with the qualifiers of both. -/
def pointerTo (symbol : SymbolId) (target quals : Qualifiers) : TypeTree :=
  .layer .pointer (.named .record symbol target) quals

/-- The type with pointers to records for its classes. -/
def resolved : TypeTree → TypeTree :=
  fold
    { basic := .basic
      layer := .layer
      named := fun naming symbol quals =>
        if naming = .classRef then pointerTo symbol quals quals else .named naming symbol quals
      assocArray := .assocArray
      function := .function }

@[simp] theorem resolved_basic (builtin : BasicType) (quals : Qualifiers) :
    (basic builtin quals).resolved = .basic builtin quals := rfl

@[simp] theorem resolved_layer (around : Layer) (inner : TypeTree) (quals : Qualifiers) :
    (layer around inner quals).resolved = .layer around inner.resolved quals := rfl

@[simp] theorem resolved_classRef (symbol : SymbolId) (quals : Qualifiers) :
    (named .classRef symbol quals).resolved = pointerTo symbol quals quals := rfl

theorem resolved_named {naming : Naming} (other : naming ≠ .classRef) (symbol : SymbolId)
    (quals : Qualifiers) : (named naming symbol quals).resolved = .named naming symbol quals :=
  if_neg other

@[simp] theorem resolved_assocArray (key value : TypeTree) (quals : Qualifiers) :
    (assocArray key value quals).resolved = .assocArray key.resolved value.resolved quals := rfl

@[simp] theorem resolved_function (result : TypeTree) (params : List (Passing × TypeTree))
    (convention : Convention) (quals : Qualifiers) :
    (function result params convention quals).resolved =
      .function result.resolved (params.map fun param => (param.1, param.2.resolved)) convention
        quals :=
  fold_function _ _ _ _ _

/-! ## What does not change -/

section

variable (tree : TypeTree)

theorem quals_resolved : tree.resolved.quals = tree.quals := by
  cases tree with
  | named naming => cases naming <;> rfl
  | function => simp [quals]
  | _ => rfl

theorem isForeign_resolved : tree.resolved.isForeign = tree.isForeign := by
  simp [isForeign, quals_resolved]

theorem isStaticArray_resolved : tree.resolved.isStaticArray = tree.isStaticArray := by
  cases tree with
  | layer around => cases around <;> rfl
  | named naming => cases naming <;> rfl
  | function => simp [isStaticArray]
  | _ => rfl

theorem integral?_resolved : tree.resolved.integral? = tree.integral? := by
  cases tree with
  | named naming => cases naming <;> rfl
  | function => simp [integral?]
  | _ => rfl

theorem symbols_resolved : tree.resolved.symbols = tree.symbols := by
  induction tree with
  | basic => rfl
  | named naming => cases naming <;> rfl
  | layer around inner quals ih => exact ih
  | assocArray key value quals ih ih' => exact congrArg₂ List.append ih ih'
  | function result params convention quals ih ihs =>
      have params : params.map (fun param => param.2.resolved.symbols) =
          params.map fun param => param.2.symbols :=
        List.map_congr_left fun param listed => ihs param listed
      simp only [resolved_function, symbols, fold_function, List.map_map, Function.comp_def]
        at ih params ⊢
      rw [ih, params]

theorem passed_resolved (param : Passing × TypeTree) :
    passed (param.1, param.2.resolved) = (passed param).resolved := by
  rcases param with ⟨passing, type⟩
  cases passing <;> simp [passed, reference, thunk]

theorem returned_resolved (convention : Convention) (result : TypeTree) :
    returned convention result.resolved = (returned convention result).resolved := by
  unfold returned
  split <;> simp [reference]

end

/-! ## Records and classes -/

/-- The classes in the type are among `classes`, and no record in it is the symbol of one. -/
def Apart (classes : SymbolId → Qualifiers → Prop) : TypeTree → Prop :=
  fold
    { basic := fun _ _ => True
      layer := fun _ inner _ => inner
      named := fun naming symbol quals =>
        (naming = .record → ∀ quals, ¬ classes symbol quals) ∧
          (naming = .classRef → classes symbol quals)
      assocArray := fun key value _ => key ∧ value
      function := fun result params _ _ => result ∧ ∀ param ∈ params, param.2 }

variable {classes : SymbolId → Qualifiers → Prop}

theorem apart_function {result : TypeTree} {params : List (Passing × TypeTree)}
    {convention : Convention} {quals : Qualifiers} :
    (function result params convention quals).Apart classes ↔
      result.Apart classes ∧ ∀ param ∈ params, param.2.Apart classes := by
  rw [Apart, fold_function]
  exact and_congr Iff.rfl List.forall_mem_map

theorem apart_withoutConst (tree : TypeTree) :
    tree.withoutConst.Apart classes ↔ tree.Apart classes := by
  unfold withoutConst
  split
  · next drops =>
    cases tree with
    | named naming symbol quals =>
      cases naming <;> simp_all [mutable, requalified, dropsConst, Apart, fold]
    | _ => exact Iff.rfl
  · exact Iff.rfl

theorem apart_passed (param : Passing × TypeTree) :
    (passed param).Apart classes ↔ param.2.Apart classes := by
  rcases param with ⟨passing, type⟩
  cases passing
  case lazy =>
    have thunk : (function type [] {} {}).Apart classes ↔ type.Apart classes := by
      simp [apart_function]
    exact thunk
  all_goals exact Iff.rfl

theorem apart_returned (convention : Convention) (result : TypeTree) :
    (returned convention result).Apart classes ↔ result.Apart classes := by
  unfold returned
  split <;> exact Iff.rfl

/-- The type that was resolved. -/
def recovered (isClass : SymbolId → Bool) : TypeTree → TypeTree :=
  fold
    { basic := .basic
      layer := fun around inner quals =>
        match around, inner with
        | .pointer, .named .record symbol target =>
          if isClass symbol then .named .classRef symbol quals
          else .layer .pointer (.named .record symbol target) quals
        | around, inner => .layer around inner quals
      named := .named
      assocArray := .assocArray
      function := .function }

theorem recovered_resolved {isClass : SymbolId → Bool}
    (decides : ∀ symbol, isClass symbol = true ↔ ∃ quals, classes symbol quals) (tree : TypeTree)
    (apart : tree.Apart classes) : tree.resolved.recovered isClass = tree := by
  induction tree with
  | basic builtin quals => rfl
  | named naming symbol quals =>
      cases naming with
      | classRef => exact if_pos ((decides symbol).mpr ⟨quals, apart.2 rfl⟩)
      | _ => rfl
  | layer around inner quals ih =>
      have same : recovered isClass inner.resolved = inner := ih apart
      simp only [recovered, resolved_layer, fold] at same ⊢
      rw [same]
      split
      · next symbol target =>
        refine if_neg fun known => ?_
        obtain ⟨quals', named⟩ := (decides symbol).mp known
        exact apart.1 rfl quals' named
      · rfl
  | assocArray key value quals ih ih' =>
      have same := ih apart.1
      have same' := ih' apart.2
      simp only [recovered, resolved_assocArray, fold] at same same' ⊢
      rw [same, same']
  | function result params convention quals ih ihs =>
      obtain ⟨returned, passed⟩ := apart_function.mp apart
      have same := ih returned
      have params :
          params.map (fun param => (param.1, param.2.resolved.recovered isClass)) = params :=
        (List.map_congr_left fun param listed => by
          rw [ihs param listed (passed param listed)]).trans params.map_id'
      simp only [recovered, resolved_function, fold_function, List.map_map, Function.comp_def]
        at same params ⊢
      rw [same, params]

/-- Types that keep records and classes apart are known from what they are resolved to. -/
theorem resolved_inj {tree tree' : TypeTree} (apart : tree.Apart classes)
    (apart' : tree'.Apart classes) : tree.resolved = tree'.resolved ↔ tree = tree' := by
  classical
  have decides (symbol : SymbolId) :
      decide (∃ quals, classes symbol quals) = true ↔ ∃ quals, classes symbol quals :=
    decide_eq_true_iff
  refine ⟨fun same => ?_, congrArg resolved⟩
  rw [← recovered_resolved decides tree apart, same, recovered_resolved decides tree' apart']

/-- Nothing is resolved to the record of a class. -/
theorem resolved_ne_record {tree : TypeTree} (apart : tree.Apart classes) {symbol : SymbolId}
    {known : Qualifiers} (named : classes symbol known) (quals : Qualifiers) :
    tree.resolved ≠ .named .record symbol quals := by
  intro same
  cases tree with
  | named naming other quals' =>
      cases naming <;> cases same
      exact apart.1 rfl known named
  | function => simp at same
  | _ => cases same

/-- Only the class is resolved to a pointer to its record. -/
theorem resolved_eq_pointerTo {tree : TypeTree} (apart : tree.Apart classes) {symbol : SymbolId}
    {known : Qualifiers} (named : classes symbol known) {target quals : Qualifiers}
    (same : tree.resolved = pointerTo symbol target quals) :
    tree = .named .classRef symbol quals ∧ target = quals := by
  cases tree with
  | named naming other quals' =>
      cases naming <;> cases same
      exact ⟨rfl, rfl⟩
  | layer around inner quals' =>
      have inside : inner.Apart classes := apart
      exact absurd (layer.inj same).2.1 (resolved_ne_record inside named target)
  | function => simp [pointerTo] at same
  | _ => cases same

end LinkName.TypeTree
