import LinkName.Proofs.Graph.Path
import LinkName.Proofs.Itanium.Orderly
import LinkName.Proofs.Microsoft.Erased

/-!
What is left of a type where it stands. An array inside another type is left with all its
dimensions, and elsewhere it is left as a pointer; a record or an enumeration has a mark of its own
where it is returned.
-/
namespace LinkName

/-! ## Types of C++ -/

namespace TypeTree

def isReference : TypeTree → Bool
  | .layer .reference _ _ => true
  | _ => false

/-- C++ has the type, as far as references and `void` go: nothing is made of a reference, and no
parameter is passed by value as `void`. -/
inductive Cpp : TypeTree → Prop
  | basic (builtin : BasicType) (quals : Qualifiers) : Cpp (.basic builtin quals)
  | layer (around : Layer) {inner : TypeTree} (quals : Qualifiers) (cpp : Cpp inner)
      (direct : inner.isReference = false) : Cpp (.layer around inner quals)
  | named (naming : Naming) (symbol : SymbolId) (quals : Qualifiers) :
      Cpp (.named naming symbol quals)
  | assocArray (key value : TypeTree) (quals : Qualifiers) : Cpp (.assocArray key value quals)
  | function {result : TypeTree} {params : List (Passing × TypeTree)} (convention : Convention)
      (quals : Qualifiers) (returns : Cpp (.returned convention result))
      (takes : ∀ param ∈ params, Cpp (passed param))
      (values : ∀ param ∈ params, (passed param).isVoid = false) :
      Cpp (.function result params convention quals)

theorem shape_of_element {tree : TypeTree} (element : tree.isStaticArray = false) :
    tree.shape = ([], tree) := by
  cases tree with
  | layer around inner quals => cases around <;> first | rfl | cases element
  | _ => rfl

/-- The elements of an array of C++ are no references. -/
theorem Cpp.shape {tree : TypeTree} (cpp : tree.Cpp) (direct : tree.isReference = false) :
    tree.shape.2.Cpp ∧ tree.shape.2.isReference = false := by
  induction tree with
  | layer around inner quals ih =>
      cases around with
      | staticArray dim =>
          cases cpp with
          | layer _ _ cpp direct => exact ih cpp direct
      | _ => exact ⟨cpp, direct⟩
  | _ => exact ⟨cpp, direct⟩

end TypeTree

namespace Microsoft

/-! ## Erasure -/

namespace Erased

/-- What is left of what is never written. -/
def nothing : Erased := .leaf .none "" []

/-- A pointer to what is left of its target. To a function there is no mark and no width, and in the
modern dialect all pointers to arrays are `const`. -/
def pointed (machine : Target) (isConst : Bool) (context : Context) (target : Erased) : Erased :=
  match target with
  | .function _ _ _ _ => .pointer .none isConst false target
  | .array _ _ _ =>
    .pointer (context.pointerMark isConst) (isConst || !machine.isLegacy) machine.is64Bit target
  | _ => .pointer (context.pointerMark isConst) isConst machine.is64Bit target

/-- An array of what is left of its elements. -/
def arrayed (mark : Mark) (dim : Nat) : Erased → Erased
  | .array _ dims element => .array mark (dim :: dims) element
  | element => .array mark [dim] element

theorem arrayed_of_ne {element : Erased} (other : element.sign ≠ .array) (mark : Mark) (dim : Nat) :
    arrayed mark dim element = .array mark [dim] element := by
  cases element <;> first | rfl | exact absurd rfl other

theorem pointed_of_ne {target : Erased} (object : target.sign ≠ .function)
    (single : target.sign ≠ .array) (machine : Target) (isConst : Bool) (context : Context) :
    pointed machine isConst context target =
      .pointer (context.pointerMark isConst) isConst machine.is64Bit target := by
  cases target <;> first | rfl | exact absurd rfl object | exact absurd rfl single

/-- What a parameter is written as. -/
def passed : Passing × (Context → Erased) → Erased
  | (.value, type) => type .parameter
  | (.ref, type) | (.out, type) => .reference (type .below)
  | (.lazy, type) => .pointer .none false false (.function "A" (type .result) [] false)

def returned (convention : Convention) (result : Context → Erased) : Erased :=
  if convention.refResult then .reference (result .below) else result .result

end Erased

section

variable (graph : Graph) (machine : Target)

/-- The name of a symbol if every look-up misses. -/
def symbolSpelling (id : SymbolId) : Except Refusal (List Char) :=
  Token.write <$> Encoder.outcome
    (qualifiedName machine (encoding machine (Encoder.depthBound graph) : Encoding graph) id)
    (Tables.bounded 0)

/-- The same; nothing if the symbol has no name. -/
def symbolChars (id : SymbolId) : List Char := (symbolSpelling graph machine id).toOption.getD []

/-- The code of a record; nothing if it is not there. -/
def letter (id : SymbolId) : String := ((graph.symbol id).toOption.map recordLetter).getD ""

/-- What is left of a type where it stands. -/
def residue : TypeTree → Context → Erased :=
  TypeTree.fold
    { basic := fun kind quals context =>
        .leaf (context.mark machine quals.isConst) ((builtin? machine kind).getD "") []
      layer := fun around inner quals context =>
        match around with
        | .pointer => .pointed machine quals.isConst context (inner context.inner)
        | .reference => .reference (inner context.inner)
        | .staticArray dim =>
          match context with
          | .parameter | .result => .pointer .none machine.isLegacy false (inner .below)
          | .below | .element =>
            .arrayed (context.mark machine quals.isConst) dim (inner .element)
        | .vector => .leaf .none "T" vectorName
        | .dynamicArray | .delegate => .nothing
      named := fun naming symbol quals context =>
        match naming with
        | .record =>
          .leaf (context.namedMark machine quals.isConst) (letter graph symbol)
            (symbolChars graph machine symbol)
        | .enumeration base =>
          .leaf (context.namedMark machine quals.isConst) ((enumBase? base).getD "")
            (symbolChars graph machine symbol)
        | .classRef =>
          .pointer (context.pointerMark quals.isConst) quals.isConst machine.is64Bit
            (.leaf (context.inner.mark machine quals.isConst) "V"
              (symbolChars graph machine symbol))
        | .typedef => .nothing
      assocArray := fun _ _ _ _ => .nothing
      function := fun result params convention _ _ =>
        .function ((convention? machine convention.linkage false).getD "")
          (.returned convention result) (params.map .passed) convention.variadic }

theorem residue_passed (param : Passing × TypeTree) :
    residue graph machine (TypeTree.passed param) .parameter =
      .passed (param.1, residue graph machine param.2) := by
  obtain ⟨passing, type⟩ := param
  cases passing with
  | value | ref | out => rfl
  | lazy =>
      have code : convention? machine .cpp false = some "A" := by
        unfold convention?
        split <;> rfl
      have function : residue graph machine (.function type [] {} {}) Context.parameter.inner =
          .function "A" (residue graph machine type .result) [] false := by
        simp only [residue, TypeTree.fold_function, code]
        rfl
      exact congrArg (Erased.pointed machine false .parameter) function

theorem residue_returned (convention : Convention) (result : TypeTree) :
    residue graph machine (.returned convention result) .result =
      .returned convention (residue graph machine result) := by
  unfold TypeTree.returned Erased.returned
  split <;> rfl

theorem residue_function (result : TypeTree) (params : List (Passing × TypeTree))
    (convention : Convention) (quals : Qualifiers) (context : Context) :
    residue graph machine (.function result params convention quals) context =
      .function ((convention? machine convention.linkage false).getD "")
        (residue graph machine (.returned convention result) .result)
        (params.map fun param => residue graph machine (TypeTree.passed param) .parameter)
        convention.variadic := by
  simp only [residue_returned, residue_passed]
  simp only [residue, TypeTree.fold_function, List.map_map, Function.comp_def]

end

/-! ## Arrays and pointers -/

section

variable {graph : Graph} {machine : Target}

/-- Only arrays are left as arrays. -/
theorem sign_residue_ne_array {tree : TypeTree} (other : tree.isStaticArray = false)
    (context : Context) : (residue graph machine tree context).sign ≠ .array := by
  cases tree with
  | basic => nofun
  | layer around inner quals =>
      cases around with
      | pointer =>
          show (Erased.pointed machine quals.isConst context _).sign ≠ _
          unfold Erased.pointed
          split <;> nofun
      | staticArray => cases other
      | reference | vector | dynamicArray | delegate => nofun
  | named naming => cases naming <;> nofun
  | assocArray => nofun
  | function => rw [residue_function]; nofun

/-- Only functions are left as functions. -/
theorem sign_residue_ne_function {tree : TypeTree}
    (other : ∀ result params convention quals, tree ≠ .function result params convention quals)
    (context : Context) : (residue graph machine tree context).sign ≠ .function := by
  cases tree with
  | basic => nofun
  | layer around inner quals =>
      cases around with
      | pointer =>
          show (Erased.pointed machine quals.isConst context _).sign ≠ _
          unfold Erased.pointed
          split <;> nofun
      | staticArray dim =>
          cases context with
          | parameter | result => nofun
          | below | element =>
              show (Erased.arrayed _ dim _).sign ≠ _
              unfold Erased.arrayed
              split <;> nofun
      | reference | vector | dynamicArray | delegate => nofun
  | named naming => cases naming <;> nofun
  | assocArray => nofun
  | function => exact absurd rfl (other _ _ _ _)

/-- An array inside another type is left with all its dimensions. -/
theorem residue_array {tree : TypeTree} (array : tree.isStaticArray = true) {context : Context}
    (inside : context = .below ∨ context = .element) :
    residue graph machine tree context = .array (context.mark machine tree.isConst) tree.shape.1
      (residue graph machine tree.shape.2 .element) := by
  induction tree generalizing context with
  | layer around inner quals ih =>
      cases around with
      | staticArray dim =>
          have whole : residue graph machine (.layer (.staticArray dim) inner quals) context =
              .arrayed (context.mark machine quals.isConst) dim
                (residue graph machine inner .element) := by
            rcases inside with rfl | rfl <;> rfl
          rw [whole]
          cases nested : inner.isStaticArray with
          | true =>
              rw [ih nested (.inr rfl)]
              rfl
          | false =>
              have apart : (residue graph machine inner .element).sign ≠ .array :=
                sign_residue_ne_array nested .element
              have flat := TypeTree.shape_of_element nested
              rw [Erased.arrayed_of_ne apart]
              simp only [TypeTree.shape, flat]
              rfl
      | _ => cases array
  | basic | named | assocArray | function => cases array

end

/-! ## Marks and lengths -/

/-- Where a type stands, apart from results, whose mark is written before them. -/
def Place.context (place : Place) : Context :=
  if place.element then .element else if place.indirect then .below else .parameter

theorem Place.context_below (place : Place) : place.below.context = place.context.inner := by
  rcases place with ⟨_ | _, _ | _, _ | _⟩ <;> rfl

theorem Place.context_below_inside (place : Place) :
    place.below.context = .below ∨ place.below.context = .element := by
  rcases place with ⟨_ | _, _ | _, _ | _⟩ <;> decide

theorem write_singleton (token : Token) : Token.write [token] = token.chars :=
  List.append_nil _

section

variable {graph : Graph} {machine : Target}

theorem write_modifier {tree : TypeTree} (object : tree.isPointer = false) (place : Place) :
    Token.write (Plan.modifier machine tree place) =
      (place.context.mark machine tree.isConst).chars := by
  unfold Plan.modifier Context.mark
  generalize tree.isConst = isConst, machine.isLegacy = isLegacy
  rw [object]
  rcases place with ⟨_ | _, _, _ | _⟩ <;> cases isConst <;> cases isLegacy <;> rfl

theorem write_modifier_pointer {tree : TypeTree} (pointer : tree.isPointer = true) (place : Place) :
    Token.write (Plan.modifier machine tree place) =
      (place.context.pointerMark tree.isConst).chars := by
  unfold Plan.modifier Context.pointerMark
  generalize tree.isConst = isConst
  rw [pointer, Bool.not_true, Bool.and_false]
  rcases place with ⟨_ | _, _, _ | _⟩ <;> cases isConst <;> rfl

theorem Place.namedMark_context (place : Place) (isConst : Bool) :
    place.context.namedMark machine isConst = place.context.mark machine isConst := by
  rcases place with ⟨_ | _, _, _ | _⟩ <;> rfl

/-- A class has the mark of a pointer. -/
theorem write_classMark {tree : TypeTree} (object : tree.isPointer = false) (place : Place) :
    Token.write (if place.indirect then Plan.modifier machine tree place else []) =
      (place.context.pointerMark tree.isConst).chars := by
  have marks : Token.write (Plan.modifier machine tree place) =
      (place.context.mark machine tree.isConst).chars := write_modifier object place
  rcases place with ⟨_ | _, _, _ | _⟩ <;> first | rfl | exact marks

theorem write_width : Token.write (width machine) = Erased.wideChars machine.is64Bit := by
  unfold width Erased.wideChars
  cases machine.is64Bit <;> rfl

theorem write_pointerLetter (isConst : Bool) :
    Token.write [pointerLetter isConst] = [if isConst then 'Q' else 'P'] := by
  cases isConst <;> rfl

theorem write_dimensions (dims : List Nat) :
    Token.write (dimensions dims) = 'Y' :: Erased.dimensionChars dims := by
  simp only [Token.write, dimensions, List.flatMap_cons, List.flatMap_map, Erased.dimensionChars]
  rfl

theorem write_parameterEnd (isVariadic isEmpty : Bool) :
    Token.write (Plan.parameterEnd isVariadic isEmpty) = Erased.ending isVariadic isEmpty := by
  cases isVariadic <;> cases isEmpty <;> rfl

theorem length_convention {linkage : Linkage} {isMember : Bool} {code : String}
    (known : convention? machine linkage isMember = some code) : code.toList.length = 1 := by
  unfold convention? at known
  split at known
  · cases known
    rfl
  · cases linkage <;> cases isMember <;> cases known <;> rfl

end

/-! ## Results and parameters -/

section

variable {graph : Graph} {machine : Target} {names : List Char → Prop}

/-- A result is told apart from its mark. -/
theorem residue_result (tree : TypeTree) :
    (residue graph machine tree .result).chars machine =
      Token.write (Plan.resultMark tree) ++
        (residue graph machine tree .parameter).chars machine := by
  cases tree with
  | named naming symbol quals =>
      have marks : (Mark.result (quals.isConst && machine.isLegacy)).chars =
          ['?', 'A'] ++ (Context.parameter.mark machine quals.isConst).chars := by
        unfold Context.mark
        cases quals.isConst && machine.isLegacy <;> rfl
      cases naming with
      | record | enumeration =>
          show (Mark.result _).chars ++ _ = _
          rw [marks, List.append_assoc]
          rfl
      | classRef | typedef => rfl
  | layer around => cases around <;> rfl
  | basic | assocArray => rfl
  | function =>
      rw [residue_function, residue_function]
      rfl

theorem formed_result {tree : TypeTree}
    (formed : (residue graph machine tree .parameter).Formed machine names .parameter) :
    (residue graph machine tree .result).Formed machine names .result := by
  cases tree with
  | named naming symbol quals =>
      cases naming with
      | record | enumeration =>
          cases formed with
          | leaf _ coded =>
              exact .leaf (.inr (Context.namedMark_mem machine quals.isConst .result)) coded
      | classRef | typedef => exact formed.result
  | layer around => cases around <;> exact formed.result
  | basic | assocArray => exact formed.result
  | function =>
      rw [residue_function] at formed ⊢
      exact formed.result

theorem isVoid_of_code {tree : TypeTree}
    (left : (residue graph machine tree .parameter).code = "X") : tree.isVoid = true := by
  have other : "X" ∉ nameCodes := by decide
  have bare : "" ≠ "X" := by decide
  cases tree with
  | basic kind quals =>
      change (builtin? machine kind).getD "" = "X" at left
      unfold builtin? at left
      generalize machine.isLegacy = isLegacy at left
      cases kind <;> first | rfl | exact absurd left (by revert isLegacy; decide)
  | layer around inner quals =>
      cases around with
      | pointer =>
          change (Erased.pointed machine quals.isConst .parameter _).code = _ at left
          unfold Erased.pointed at left
          split at left <;> exact absurd left bare
      | vector => exact absurd left (show "T" ≠ "X" by decide)
      | reference | staticArray | dynamicArray | delegate => exact absurd left bare
  | named naming symbol quals =>
      cases naming with
      | record =>
          change letter graph symbol = "X" at left
          unfold letter at left
          cases found : (graph.symbol symbol).toOption with
          | none =>
              rw [found] at left
              exact absurd left bare
          | some stored =>
              rw [found] at left
              exact absurd (left ▸ recordLetter_mem stored) other
      | enumeration base =>
          change (enumBase? base).getD "" = "X" at left
          cases known : enumBase? base with
          | none =>
              rw [known] at left
              exact absurd left bare
          | some letter =>
              rw [known] at left
              exact absurd (left ▸ enumBase?_mem known) other
      | classRef | typedef => exact absurd left bare
  | assocArray => exact absurd left bare
  | function =>
      rw [residue_function] at left
      exact absurd left bare

end

end Microsoft

end LinkName
