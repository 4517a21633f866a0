import LinkName.Proofs.Microsoft.Reading
import LinkName.Proofs.Microsoft.Residue
import LinkName.Proofs.Type.Derivation

/-!
What the text of a type says of it when every look-up misses, and what it leaves out. It leaves out
which of several types with one code a builtin type or the base of an enumeration is, and every
`const` that is not spelled: in the modern dialect those of parameters and results, but for pointers
to anything else than arrays; in both dialects those of references, of functions, of array elements
and, inside an element, of all but pointers. It leaves out what is in a vector, whether something is
passed or returned by reference or is a reference, that a lazy parameter is no pointer to a function,
and which of the conventions with one code a function has. An array that is no element is written as
a pointer without its length. The rest is told: types of C++ that are written alike are alike in
everything else.
-/
namespace LinkName.Microsoft

/-! ## Names of symbols -/

section

variable {graph : Graph} {machine : Target}

theorem Follows.full {overlay : Overlay graph} {computation : Encoder graph (List Token)}
    {script : Script} (follows : Follows overlay computation script) (sound : overlay.Sound) :
    Encoder.outcomeFrom overlay computation (Tables.bounded 0) = script.full := by
  have empty : (reading graph).relates overlay (Tables.bounded 0) (Record.bounded 0) :=
    ⟨rfl, rfl, .nil⟩
  rw [follows.outcomeFrom sound empty, StateT.run, Script.run_of_full_record]
  cases script.full <;> rfl

theorem symbolSpelling_eq (formed : graph.WellFormed) (order : graph.Order) {id : SymbolId}
    (held : graph.Holds (.symbol id)) : symbolSpelling graph machine id =
      Token.write <$> ((Plan.settled order machine).qualifiedName graph machine id).full := by
  have follows : Follows {}
      (qualifiedName machine (encoding machine (Encoder.depthBound graph) : Encoding graph) id)
      ((Plan.within graph machine (Encoder.depthBound graph)).qualifiedName graph machine id) :=
    (followsPlan_within formed machine (Encoder.depthBound graph)).qualifiedName formed held
  rw [symbolSpelling, ← Encoder.outcomeFrom_empty, follows.full (Overlay.sound_empty formed),
    Plan.qualifiedName_congr_parts formed held fun part listed => ?_]
  obtain ⟨heldPart, less⟩ := Item.below_ofLevels formed order held part listed
  exact Plan.within_eq_settled formed order heldPart
    (less.trans_le (Encoder.rank_le_depthBound order held))

end

namespace Script

variable {place : Place} {tree : TypeTree}

theorem full_recorded (body : Script) : (recorded place tree body).full = body.full := by
  unfold recorded
  split <;> rfl

theorem full_recordedAfter (lead : List Token) (body : Script) :
    (recordedAfter place tree lead body).full = (append (.write lead) body).full := by
  unfold recordedAfter
  split <;> rfl

end Script

namespace Plan

/-- The symbols of the type that have names have these names. -/
def Admits (graph : Graph) (machine : Target) (names : List Char → Prop) (tree : TypeTree) : Prop :=
  ∀ symbol ∈ tree.symbols, ∀ name, symbolSpelling graph machine symbol = .ok name → names name

/-- The tokens say what is left of the type where it stands. -/
structure Tells (graph : Graph) (machine : Target) (names : List Char → Prop) (tree : TypeTree)
    (context : Context) (tokens : List Token) : Prop where
  text : Token.write tokens = (residue graph machine tree context).chars machine
  formed : tree.Cpp → (tree.isReference = true → context ≠ .below) →
    (residue graph machine tree context).Formed machine names context

variable {graph : Graph} {machine : Target} {order : graph.Order} {names : List Char → Prop}
variable {tokens : List Token}

theorem Tells.of_eq {tree : TypeTree} {context : Context} {erased : Erased}
    (left : residue graph machine tree context = erased)
    (text : Token.write tokens = erased.chars machine)
    (formed : tree.Cpp → (tree.isReference = true → context ≠ .below) →
      erased.Formed machine names context) : Tells graph machine names tree context tokens := by
  subst left
  exact ⟨text, formed⟩

/-- The full text of the type says what is left of it. -/
abbrev TellsIn (order : graph.Order) (machine : Target) (names : List Char → Prop)
    (tree : TypeTree) (place : Place) : Prop :=
  ∀ tokens, (settled order machine (.type tree place)).full = .ok tokens →
    Tells graph machine names tree place.context tokens

theorem tells_array {tree : TypeTree} {place : Place}
    (inside : place.context = .below ∨ place.context = .element) (array : tree.isStaticArray = true)
    (elements : TellsIn order machine names tree.shape.2 { place with element := true })
    (whole : ((settled order machine).array machine tree place).full = .ok tokens) :
    Tells graph machine names tree place.context tokens := by
  obtain ⟨rest, below, rfl⟩ := Script.full_write_append whole
  obtain ⟨text, formed⟩ : Tells graph machine names tree.shape.2 .element rest :=
    elements rest below
  have object : tree.isPointer = false := by
    cases tree with
    | layer around => cases around <;> first | rfl | cases array
    | _ => rfl
  have direct : tree.isReference = false := by
    cases tree with
    | layer around => cases around <;> first | rfl | cases array
    | _ => rfl
  constructor
  · rw [residue_array array inside, Token.write_append, Token.write_append, write_modifier object,
      write_dimensions, text]
    exact List.append_assoc _ _ _
  · intro cpp _
    obtain ⟨cppElement, directElement⟩ := cpp.shape direct
    rw [residue_array array inside]
    exact .array (Context.mark_mem machine _ _) _ (formed cppElement fun reference =>
      absurd (directElement.symm.trans reference) Bool.false_ne_true)

theorem tells_pointee {tree : TypeTree} {place : Place}
    (inside : place.context = .below ∨ place.context = .element)
    (elements : TellsIn order machine names tree.shape.2 { place with element := true })
    (direct : tree.isStaticArray = false → TellsIn order machine names tree place)
    (whole : ((settled order machine).pointee machine tree place).full = .ok tokens) :
    Tells graph machine names tree place.context tokens := by
  unfold pointee at whole
  cases array : tree.isStaticArray with
  | true =>
      rw [array, if_pos rfl] at whole
      exact tells_array inside array elements whole
  | false =>
      rw [array, if_neg Bool.false_ne_true] at whole
      exact direct array tokens whole

/-! ### Functions -/

section

variable {result : TypeTree} {params : List (Passing × TypeTree)} {convention : Convention}
variable {quals : Qualifiers}
variable (admits : Admits graph machine names (.function result params convention quals))
include admits

theorem Admits.returned : Admits graph machine names (.returned convention result) := by
  intro symbol listed
  rw [TypeTree.symbols_returned] at listed
  exact admits symbol (TypeTree.mem_symbols_function.mpr (.inl listed))

theorem Admits.passed {param : Passing × TypeTree} (known : param ∈ params) :
    Admits graph machine names (TypeTree.passed param) := by
  intro symbol listed
  rw [TypeTree.symbols_passed] at listed
  exact admits symbol (TypeTree.mem_symbols_function.mpr (.inr ⟨param, known, listed⟩))

end

theorem full_parameter {param : Passing × TypeTree}
    (whole : ((settled order machine).parameter graph param).full = .ok tokens) :
    (settled order machine (.type (TypeTree.passed param) {})).full = .ok tokens := by
  unfold parameter at whole
  split at whole
  · cases whole
  · exact whole

theorem tells_listed {params : List (Passing × TypeTree)}
    (tells : ∀ param ∈ params, TellsIn order machine names (TypeTree.passed param) {})
    (whole : (Script.concat (params.map ((settled order machine).parameter graph))).full =
      .ok tokens) :
    Token.write tokens = (params.map fun param =>
        residue graph machine (TypeTree.passed param) .parameter).flatMap (Erased.chars machine) ∧
      ((∀ param ∈ params, (TypeTree.passed param).Cpp) →
        ∀ erased ∈ params.map fun param =>
          residue graph machine (TypeTree.passed param) .parameter,
          erased.Formed machine names .parameter) := by
  induction params generalizing tokens with
  | nil =>
      cases whole
      exact ⟨rfl, nofun⟩
  | cons first others ih =>
      obtain ⟨head, tail⟩ := List.forall_mem_cons.mp tells
      obtain ⟨before, after, begun, further, rfl⟩ := Script.full_append whole
      obtain ⟨text, formed⟩ : Tells graph machine names (TypeTree.passed first) .parameter before :=
        head before (full_parameter begun)
      obtain ⟨texts, each⟩ := ih tail further
      rw [Token.write_append, text, texts, List.map_cons, List.flatMap_cons]
      refine ⟨rfl, fun cpp => ?_⟩
      obtain ⟨cppFirst, cppOthers⟩ := List.forall_mem_cons.mp cpp
      exact List.forall_mem_cons.mpr ⟨formed cppFirst nofun, each cppOthers⟩

theorem tells_result {convention : Convention} {result : TypeTree}
    (tells : TellsIn order machine names (.returned convention result) { returned := true })
    (whole : ((settled order machine).result false convention result).full = .ok tokens) :
    Tells graph machine names (.returned convention result) .result tokens := by
  obtain ⟨rest, written, rfl⟩ := Script.full_write_append whole
  obtain ⟨text, formed⟩ : Tells graph machine names (.returned convention result) .parameter rest :=
    tells rest written
  constructor
  · rw [residue_result, Token.write_append, text]
  · exact fun cpp _ => formed_result (formed cpp nofun)

theorem tells_function {result : TypeTree} {params : List (Passing × TypeTree)}
    {convention : Convention} {quals : Qualifiers}
    (returns : TellsIn order machine names (.returned convention result) { returned := true })
    (takes : ∀ param ∈ params, TellsIn order machine names (TypeTree.passed param) {})
    (whole : ((settled order machine).functionType graph machine
      (.function result params convention quals) false false).full = .ok tokens)
    (context : Context) :
    '6' :: Token.write tokens = (residue graph machine
      (.function result params convention quals) context).chars machine ∧
    ((TypeTree.function result params convention quals).Cpp →
      (residue graph machine (.function result params convention quals) context).Formed machine
        names context) := by
  simp only [functionType, Bool.false_and] at whole
  cases known : convention? machine convention.linkage false with
  | none =>
      simp only [known] at whole
      cases whole
  | some code =>
      simp only [known] at whole
      obtain ⟨_, inner, rfl⟩ := Script.full_write_append whole
      obtain ⟨resultTokens, _, returned, rest, rfl⟩ := Script.full_append inner
      obtain ⟨listed, ending, passed, closing, rfl⟩ := Script.full_append rest
      cases closing
      obtain ⟨text, formed⟩ := tells_result returns returned
      obtain ⟨texts, each⟩ := tells_listed takes passed
      rw [residue_function, known, Option.getD_some]
      constructor
      · rw [Erased.chars, Erased.body_function]
        simp only [Token.write_append, write_singleton, text, texts, write_parameterEnd,
          Token.chars, List.isEmpty_map]
        rfl
      · intro cpp
        cases cpp with
        | function _ _ cppResult cppParams values =>
            have apart : Context.result ≠ .below := by decide
            refine .function (length_convention known) (formed cppResult fun _ => apart)
              (each cppParams) ?_
            intro erased found starts
            obtain ⟨param, member, rfl⟩ := List.mem_map.mp found
            have void := isVoid_of_code ((each cppParams _ found).code_eq starts)
            rw [values param member] at void
            cases void

/-! ### Other types -/

/-- The types among the parts of an item tell what is left of them. An array counts only where it is
written as a pointer. -/
abbrev TellsParts (order : graph.Order) (machine : Target) (names : List Char → Prop)
    (parts : List Item) : Prop :=
  ∀ part ∈ parts, ∀ tree place, part = .type tree place → Admits graph machine names tree →
    (tree.isStaticArray = true → place.context = .parameter) →
      TellsIn order machine names tree place

/-- What is inside a type tells what is left of it. -/
theorem tells_inner {inner : TypeTree} {place : Place}
    (parts : TellsParts order machine names (Item.ofPointee inner place.below))
    (admits : Admits graph machine names inner) :
    TellsIn order machine names inner.shape.2 { place.below with element := true } ∧
      (inner.isStaticArray = false → TellsIn order machine names inner place.below) := by
  constructor
  · refine parts _ List.mem_cons_self _ _ rfl ?_ ?_
    · intro symbol listed
      rw [TypeTree.symbols_shape] at listed
      exact admits symbol listed
    · intro array
      rw [TypeTree.isStaticArray_shape] at array
      cases array
  · intro single
    refine parts _ (List.mem_cons_of_mem _ List.mem_cons_self) _ _ rfl admits fun array => ?_
    rw [single] at array
    cases array

theorem tells_signature {result : TypeTree} {params : List (Passing × TypeTree)}
    {convention : Convention} {quals : Qualifiers}
    (parts : TellsParts order machine names
      (Item.ofFunction (.function result params convention quals)))
    (admits : Admits graph machine names (.function result params convention quals)) :
    TellsIn order machine names (.returned convention result) { returned := true } ∧
      ∀ param ∈ params, TellsIn order machine names (TypeTree.passed param) {} := by
  constructor
  · exact parts _ List.mem_cons_self _ _ rfl admits.returned fun _ => rfl
  · intro param known
    exact parts _ (List.mem_cons_of_mem _ (List.mem_map_of_mem known)) _ _ rfl
      (admits.passed known) fun _ => rfl

theorem pointer_eq {tree target : TypeTree} {plan : Plan} {place : Place}
    (object : ∀ result params convention quals, target ≠ .function result params convention quals)
    (single : target.isStaticArray = false) :
    plan.pointer graph machine tree target place = .recorded place tree
      (.append (.write (modifier machine tree place ++ pointerLetter tree.isConst :: width machine))
        (plan (.type target place.below))) := by
  cases target with
  | function => exact absurd rfl (object _ _ _ _)
  | layer around => cases around <;> first | rfl | cases single
  | basic | named | assocArray => rfl

/-- What is inside a type of C++ is no reference. -/
theorem Tells.formed_inner {around : Layer} {inner : TypeTree} {quals : Qualifiers} {place : Place}
    (tells : Tells graph machine names inner place.below.context tokens)
    (cpp : (TypeTree.layer around inner quals).Cpp) :
    (residue graph machine inner place.context.inner).Formed machine names place.context.inner := by
  cases cpp with
  | layer _ _ cpp direct =>
      rw [← Place.context_below]
      exact tells.formed cpp fun reference =>
        absurd (direct.symm.trans reference) Bool.false_ne_true

section

variable {target : TypeTree} {quals : Qualifiers} {place : Place}

theorem residue_pointer : residue graph machine (.layer .pointer target quals) place.context =
    .pointed machine quals.isConst place.context
      (residue graph machine target place.below.context) := by
  rw [Place.context_below]
  rfl

theorem write_pointer (isConst : Bool) :
    Token.write (modifier machine (.layer .pointer target quals) place ++
        pointerLetter isConst :: width machine ++ tokens) =
      (place.context.pointerMark quals.isConst).chars ++
        (if isConst then 'Q' else 'P') ::
          (Erased.wideChars machine.is64Bit ++ Token.write tokens) := by
  have marks : Token.write (modifier machine (.layer .pointer target quals) place) =
      (place.context.pointerMark quals.isConst).chars := write_modifier_pointer rfl place
  rw [Token.write_append, Token.write_append, marks, ← List.singleton_append,
    Token.write_append, write_pointerLetter, write_width]
  exact List.append_assoc _ _ _

theorem tells_pointer_object
    (object : ∀ result params convention quals, target ≠ .function result params convention quals)
    (single : target.isStaticArray = false)
    (direct : TellsIn order machine names target place.below)
    (whole : ((settled order machine).pointer graph machine (.layer .pointer target quals) target
      place).full = .ok tokens) :
    Tells graph machine names (.layer .pointer target quals) place.context tokens := by
  rw [pointer_eq object single, Script.full_recorded] at whole
  obtain ⟨rest, below, rfl⟩ := Script.full_write_append whole
  have tells := direct rest below
  have left : residue graph machine (.layer .pointer target quals) place.context =
      .pointer (place.context.pointerMark quals.isConst) quals.isConst machine.is64Bit
        (residue graph machine target place.below.context) := by
    rw [residue_pointer, Erased.pointed_of_ne (sign_residue_ne_function object _)
      (sign_residue_ne_array single _)]
  refine .of_eq left ?_ fun cpp _ => ?_
  · rw [write_pointer, tells.text]
    rfl
  · rw [Place.context_below]
    exact .pointer (.inr (Context.pointerMark_mem _ _)) _ (.inl rfl) (tells.formed_inner cpp)

theorem tells_pointer_array (array : target.isStaticArray = true)
    (elements : TellsIn order machine names target.shape.2 { place.below with element := true })
    (whole : ((settled order machine).pointer graph machine (.layer .pointer target quals) target
      place).full = .ok tokens) :
    Tells graph machine names (.layer .pointer target quals) place.context tokens := by
  have split : (settled order machine).pointer graph machine (.layer .pointer target quals) target
      place = .recorded place (.layer .pointer target quals)
        (.append (.write (modifier machine (.layer .pointer target quals) place ++
            pointerLetter (quals.isConst || !machine.isLegacy) :: width machine))
          ((settled order machine).array machine target place.below)) := by
    cases target with
    | layer around => cases around <;> first | rfl | cases array
    | basic | named | assocArray | function => cases array
  rw [split, Script.full_recorded] at whole
  obtain ⟨rest, below, rfl⟩ := Script.full_write_append whole
  have tells := tells_array (Place.context_below_inside place) array elements below
  have left : residue graph machine (.layer .pointer target quals) place.context =
      .pointer (place.context.pointerMark quals.isConst) (quals.isConst || !machine.isLegacy)
        machine.is64Bit (residue graph machine target place.below.context) := by
    rw [residue_pointer, residue_array array (Place.context_below_inside place)]
    rfl
  refine .of_eq left ?_ fun cpp _ => ?_
  · rw [write_pointer, tells.text]
    rfl
  · rw [Place.context_below]
    exact .pointer (.inr (Context.pointerMark_mem _ _)) _ (.inl rfl) (tells.formed_inner cpp)

end

theorem tells_pointer_function {result : TypeTree} {params : List (Passing × TypeTree)}
    {convention : Convention} {quals outer : Qualifiers} {place : Place}
    (returns : TellsIn order machine names (.returned convention result) { returned := true })
    (takes : ∀ param ∈ params, TellsIn order machine names (TypeTree.passed param) {})
    (whole : ((settled order machine).pointer graph machine
      (.layer .pointer (.function result params convention quals) outer)
      (.function result params convention quals) place).full = .ok tokens) :
    Tells graph machine names (.layer .pointer (.function result params convention quals) outer)
      place.context tokens := by
  change (Script.recordedAfter _ _ _ _).full = _ at whole
  rw [Script.full_recordedAfter] at whole
  obtain ⟨rest, written, rfl⟩ := Script.full_write_append whole
  obtain ⟨text, formed⟩ := tells_function returns takes written place.below.context
  have left : residue graph machine
      (.layer .pointer (.function result params convention quals) outer) place.context =
      .pointer .none outer.isConst false (residue graph machine
        (.function result params convention quals) place.below.context) := by
    rw [residue_pointer, residue_function]
    rfl
  refine .of_eq left ?_ fun cpp _ => ?_
  · rw [Token.write_append, ← List.singleton_append, Token.write_append, write_pointerLetter]
    exact congrArg (_ :: ·) text
  · cases cpp with
    | layer _ _ cpp direct =>
        have target := formed cpp
        rw [Place.context_below] at target ⊢
        refine .pointer (.inl rfl) _ (.inr ⟨rfl, ?_⟩) target
        rw [residue_function]
        exact fun starts => by cases starts

theorem tells_pointer {target : TypeTree} {quals : Qualifiers} {place : Place}
    (inside : TellsParts order machine names (Item.ofPointee target place.below))
    (signature : TellsParts order machine names (Item.ofFunction target))
    (admits : Admits graph machine names target)
    (whole : ((settled order machine).pointer graph machine (.layer .pointer target quals) target
      place).full = .ok tokens) :
    Tells graph machine names (.layer .pointer target quals) place.context tokens := by
  obtain ⟨elements, direct⟩ := tells_inner inside admits
  by_cases function : ∃ result params convention quals,
      target = .function result params convention quals
  · obtain ⟨result, params, convention, outer, rfl⟩ := function
    obtain ⟨returns, takes⟩ := tells_signature signature admits
    exact tells_pointer_function returns takes whole
  · cases array : target.isStaticArray with
    | true => exact tells_pointer_array array elements whole
    | false =>
        exact tells_pointer_object (fun result params convention quals same =>
          function ⟨result, params, convention, quals, same⟩) array (direct array) whole

section

variable {naming : Naming} {symbol : SymbolId} {quals : Qualifiers} {place : Place}

/-- Records and enumerations are a code and a name. -/
theorem tells_coded {code : String}
    (left : residue graph machine (.named naming symbol quals) place.context =
      .leaf (place.context.namedMark machine quals.isConst) code (symbolChars graph machine symbol))
    (coded : code ∈ nameCodes) (known : names (symbolChars graph machine symbol))
    (spelled : Token.write tokens = symbolChars graph machine symbol) :
    Tells graph machine names (.named naming symbol quals) place.context
      (modifier machine (.named naming symbol quals) place ++ [.text code] ++ tokens) := by
  have mark : Token.write (modifier machine (.named naming symbol quals) place) =
      (place.context.mark machine quals.isConst).chars := write_modifier rfl place
  rw [Place.namedMark_context] at left
  refine .of_eq left ?_ fun _ _ =>
    .leaf (.inr (Context.mark_mem machine _ _)) (.inr ⟨coded, known⟩)
  rw [Token.write_append, Token.write_append, mark, write_singleton, spelled]
  exact List.append_assoc _ _ _

theorem tells_class (known : names (symbolChars graph machine symbol))
    (spelled : Token.write tokens = symbolChars graph machine symbol) :
    Tells graph machine names (.named .classRef symbol quals) place.context
      ((if place.indirect then modifier machine (.named .classRef symbol quals) place else []) ++
        [pointerLetter quals.isConst] ++ width machine ++
        modifier machine (.named .classRef symbol quals) place.below ++
        [.text (recordCode .klass)] ++ tokens) := by
  have outer : Token.write
      (if place.indirect then modifier machine (.named .classRef symbol quals) place else []) =
        (place.context.pointerMark quals.isConst).chars := write_classMark rfl place
  have inner : Token.write (modifier machine (.named .classRef symbol quals) place.below) =
      (place.below.context.mark machine quals.isConst).chars := write_modifier rfl place.below
  have left : residue graph machine (.named .classRef symbol quals) place.context =
      .pointer (place.context.pointerMark quals.isConst) quals.isConst machine.is64Bit
        (.leaf (place.below.context.mark machine quals.isConst) "V"
          (symbolChars graph machine symbol)) := by
    rw [Place.context_below]
    rfl
  refine .of_eq left ?_ fun _ _ => ?_
  · simp only [Token.write_append, outer, inner, write_width, spelled, List.append_assoc]
    rw [write_pointerLetter, write_singleton]
    rfl
  · rw [Place.context_below]
    exact .pointer (.inr (Context.pointerMark_mem _ _)) _ (.inl rfl)
      (.leaf (.inr (Context.mark_mem machine _ _)) (.inr ⟨by decide, known⟩))

theorem tells_named (formed : graph.WellFormed) (held : graph.Holds (.symbol symbol))
    (admits : ∀ name, symbolSpelling graph machine symbol = .ok name → names name)
    (whole : ((settled order machine).namedType graph machine naming symbol
      (.named naming symbol quals) place).full = .ok tokens) :
    Tells graph machine names (.named naming symbol quals) place.context tokens := by
  obtain ⟨stored, found⟩ := Graph.holds_symbol_iff.mp held
  simp only [namedType, found, Script.ofExcept] at whole
  cases led : namedLead machine naming stored (.named naming symbol quals) place with
  | error reason =>
      rw [led] at whole
      cases whole
  | ok lead =>
      rw [led] at whole
      obtain ⟨rest, written, rfl⟩ := Script.full_write_append whole
      have spelling : symbolSpelling graph machine symbol = .ok (Token.write rest) := by
        rw [symbolSpelling_eq formed order held, written]
        rfl
      have spelled : Token.write rest = symbolChars graph machine symbol := by
        rw [symbolChars, spelling]
        rfl
      have known := admits _ spelling
      rw [spelled] at known
      cases naming with
      | record =>
          cases led
          have letters : letter graph symbol = recordLetter stored := by
            rw [letter, found]
            rfl
          exact tells_coded (letters ▸ rfl) (recordLetter_mem stored) known spelled
      | enumeration base =>
          cases coded : enumBase? base with
          | none =>
              simp only [namedLead, coded] at led
              cases led
          | some code =>
              simp only [namedLead, coded] at led
              cases led
              have letters : (enumBase? base).getD "" = code := by
                rw [coded]
                rfl
              exact tells_coded (letters ▸ rfl) (enumBase?_mem coded) known spelled
      | classRef =>
          cases led
          exact tells_class known spelled
      | typedef => cases led

end

theorem tells_basic {basic : BasicType} {quals : Qualifiers} {place : Place}
    (whole : (basicType graph machine (.basic basic quals) basic place).full = .ok tokens) :
    Tells graph machine names (.basic basic quals) place.context tokens := by
  simp only [basicType] at whole
  cases known : builtin? machine basic with
  | none =>
      rw [known] at whole
      cases whole
  | some code =>
      have wrote : tokens = modifier machine (.basic basic quals) place ++ [.text code] := by
        simp only [known] at whole
        split at whole
        · rw [Script.full_recorded] at whole
          exact (Except.ok.inj whole).symm
        · exact (Except.ok.inj whole).symm
      have left : residue graph machine (.basic basic quals) place.context =
          .leaf (place.context.mark machine quals.isConst) code [] := by
        show Erased.leaf _ ((builtin? machine basic).getD "") [] = _
        rw [known]
        rfl
      refine .of_eq left ?_ fun _ _ =>
        .leaf (.inr (Context.mark_mem machine _ _)) (.inl ⟨builtin?_mem known, rfl⟩)
      rw [wrote, Token.write_append, write_modifier rfl, write_singleton]
      exact congrArg (_ ++ ·) (List.append_nil _).symm

section

variable {inner : TypeTree} {quals : Qualifiers} {place : Place}
variable (elements : TellsIn order machine names inner.shape.2 { place.below with element := true })
variable (direct : inner.isStaticArray = false → TellsIn order machine names inner place.below)
include elements direct

/-- An array that is a parameter is written as a pointer without its length. -/
theorem tells_decayed {dim : Nat} (context : place.context = .parameter)
    (whole : (Script.append (.write [pointerLetter machine.isLegacy])
      ((settled order machine).pointee machine inner place.below)).full = .ok tokens) :
    Tells graph machine names (.layer (.staticArray dim) inner quals) place.context tokens := by
  obtain ⟨rest, below, rfl⟩ := Script.full_write_append whole
  have inside : place.below.context = .below := by rw [Place.context_below, context]; rfl
  have tells := tells_pointee (.inl inside) elements direct below
  have target (cpp : (TypeTree.layer (.staticArray dim) inner quals).Cpp) := tells.formed_inner cpp
  rw [inside] at tells
  rw [context] at target ⊢
  constructor
  · rw [Token.write_append, write_pointerLetter, tells.text]
    rfl
  · exact fun cpp _ => .pointer (.inl rfl) _ (.inr ⟨rfl, (target cpp).ne_wide⟩) (target cpp)

theorem tells_reference
    (whole : (Script.append (.write (.text "A" :: width machine))
      ((settled order machine).pointee machine inner place.below)).full = .ok tokens) :
    Tells graph machine names (.layer .reference inner quals) place.context tokens := by
  obtain ⟨rest, below, rfl⟩ := Script.full_write_append whole
  have tells := tells_pointee (Place.context_below_inside place) elements direct below
  constructor
  · rw [← List.singleton_append, Token.write_append, Token.write_append, write_singleton,
      write_width, tells.text, Place.context_below]
    rfl
  · exact fun cpp above => .reference (above rfl) (tells.formed_inner cpp)

end

theorem tells_type (formed : graph.WellFormed) {tree : TypeTree} {place : Place}
    (held : (LinkName.Item.type tree place : Item).Held graph)
    (vector : names vectorName) (admits : Admits graph machine names tree)
    (outermost : tree.isStaticArray = true → place.context = .parameter) :
    TellsIn order machine names tree place := by
  refine LinkName.Item.induction (Item.descends formed) order (motive := fun item =>
    ∀ tree place, item = .type tree place → Admits graph machine names tree →
      (tree.isStaticArray = true → place.context = .parameter) →
        TellsIn order machine names tree place) ?_ held tree place rfl admits outermost
  rintro _ held parts tree place rfl admits outermost tokens whole
  rw [settled_eq formed order held] at whole
  change (type graph machine _ tree place).full = _ at whole
  unfold type at whole
  split at whole
  · cases whole
  cases tree with
  | basic basic quals => exact tells_basic whole
  | layer around inner quals =>
      have signature : TellsParts order machine names (Item.ofFunction inner) :=
        fun part listed => parts part (List.mem_append_right _ listed)
      have inside : TellsParts order machine names (Item.ofPointee inner place.below) :=
        fun part listed => parts part (List.mem_append_left _ listed)
      have admitsInner : Admits graph machine names inner := admits
      obtain ⟨elements, direct⟩ := tells_inner inside admitsInner
      cases around with
      | vector =>
          rw [Script.full_recorded] at whole
          cases whole
          exact ⟨rfl, fun _ _ => .leaf (.inl ⟨rfl, rfl⟩) (.inr ⟨by decide, vector⟩)⟩
      | staticArray dim =>
          rw [Script.full_recorded] at whole
          exact tells_decayed elements direct (outermost rfl) whole
      | pointer => exact tells_pointer inside signature admitsInner whole
      | reference =>
          rw [Script.full_recorded] at whole
          exact tells_reference elements direct whole
      | dynamicArray | delegate => cases whole
  | named naming symbol quals =>
      cases naming with
      | typedef => cases whole
      | record | enumeration | classRef =>
          simp only [Script.full_recorded] at whole
          exact tells_named formed (held symbol List.mem_cons_self)
            (admits symbol List.mem_cons_self) whole
  | assocArray | function => cases whole

end Plan

/-! ## Types of a session -/

section

variable {graph : Graph} (machine : Target) (overlay : Overlay graph)

/-- The text of a parameter of a type if every look-up misses. -/
def spelling (id : TypeId) : Except Refusal (List Char) :=
  Token.write <$> Encoder.outcomeFrom overlay
    ((encoding machine (Encoder.depthBound graph) : Encoding graph).type id {}) (Tables.bounded 0)

variable (graph)

/-- The names that types are made of: those of the symbols they mention, and that of vectors. -/
def namesIn (trees : List TypeTree) (name : List Char) : Prop :=
  name = vectorName ∨
    ∃ tree ∈ trees, ∃ symbol ∈ tree.symbols, symbolSpelling graph machine symbol = .ok name

end

section

variable {graph : Graph} {machine : Target} {overlay : Overlay graph} {id id' : TypeId}
variable {tree tree' : TypeTree} {text text' : List Char}

theorem spelling_eq (formed : graph.WellFormed) (order : graph.Order) (sound : overlay.Sound)
    (modest : overlay.Modest) (unfolds : overlay.Unfolds id tree) : spelling machine overlay id =
      Token.write <$> (Plan.settled order machine (.type tree {})).full := by
  have follows := (followsPlan_within formed machine (Encoder.depthBound graph)).type overlay id
    tree {} unfolds
  have held : (LinkName.Item.type tree {} : Item).Held graph := sound.holds_symbols formed unfolds
  have deep : (LinkName.Item.type tree {} : Item).need order < Encoder.depthBound graph :=
    modest.weight_lt formed order unfolds
  rw [spelling, follows.full sound, Plan.within_eq_settled formed order held deep]

/-- The text of a type is that of what is left of it. -/
theorem tells_spelling (formed : graph.WellFormed) (sound : overlay.Sound) (modest : overlay.Modest)
    (unfolds : overlay.Unfolds id tree) (spelled : spelling machine overlay id = .ok text)
    {names : List Char → Prop} (vector : names vectorName)
    (admits : Plan.Admits graph machine names tree) :
    text = (residue graph machine tree .parameter).chars machine ∧
      (tree.Cpp → (residue graph machine tree .parameter).Formed machine names .parameter) := by
  rw [spelling_eq formed formed.order sound modest unfolds] at spelled
  cases whole : (Plan.settled formed.order machine (.type tree {})).full with
  | error refusal =>
      rw [whole] at spelled
      cases spelled
  | ok tokens =>
      rw [whole] at spelled
      cases spelled
      obtain ⟨text, left⟩ := Plan.tells_type formed (sound.holds_symbols formed unfolds) vector
        admits (fun _ => rfl) tokens whole
      exact ⟨text, fun cpp => left cpp nofun⟩

theorem spelling_congr (formed : graph.WellFormed) (sound : overlay.Sound)
    (modest : overlay.Modest) (unfolds : overlay.Unfolds id tree)
    (unfolds' : overlay.Unfolds id' tree') (spelled : spelling machine overlay id = .ok text)
    (spelled' : spelling machine overlay id' = .ok text')
    (same : residue graph machine tree .parameter = residue graph machine tree' .parameter) :
    text = text' := by
  have every (tree : TypeTree) : Plan.Admits graph machine (fun _ => True) tree :=
    fun _ _ _ _ => trivial
  obtain ⟨whole, -⟩ := tells_spelling formed sound modest unfolds spelled trivial (every tree)
  obtain ⟨whole', -⟩ := tells_spelling formed sound modest unfolds' spelled' trivial (every tree')
  rw [whole, whole', same]

theorem residue_eq (formed : graph.WellFormed) (sound : overlay.Sound)
    (modest : overlay.Modest) (unfolds : overlay.Unfolds id tree)
    (unfolds' : overlay.Unfolds id' tree') (spelled : spelling machine overlay id = .ok text)
    (spelled' : spelling machine overlay id' = .ok text) (cpp : tree.Cpp) (cpp' : tree'.Cpp)
    (delimited : Delimited (namesIn graph machine [tree, tree'])) :
    residue graph machine tree .parameter = residue graph machine tree' .parameter := by
  have admits : ∀ type ∈ [tree, tree'],
      Plan.Admits graph machine (namesIn graph machine [tree, tree']) type :=
    fun type listed symbol inside _ named => .inr ⟨type, listed, symbol, inside, named⟩
  obtain ⟨whole, left⟩ := tells_spelling formed sound modest unfolds spelled (.inl rfl)
    (admits tree List.mem_cons_self)
  obtain ⟨whole', left'⟩ := tells_spelling formed sound modest unfolds' spelled' (.inl rfl)
    (admits tree' (List.mem_cons_of_mem _ List.mem_cons_self))
  have same : (residue graph machine tree .parameter).chars machine ++ [] =
      (residue graph machine tree' .parameter).chars machine ++ [] := by
    rw [← whole, ← whole']
  exact ((left cpp).legible delimited _ [] [] (left' cpp') same).1

/-- Types that the session knows are written alike where the same is left of them; types of C++ only
there, if the names that they are made of tell where they end. -/
def ReadByResidue (machine : Target) (overlay : Overlay graph) : Prop :=
  ∀ id id' tree tree' text text', overlay.Unfolds id tree → overlay.Unfolds id' tree' →
    spelling machine overlay id = .ok text → spelling machine overlay id' = .ok text' →
    (residue graph machine tree .parameter = residue graph machine tree' .parameter →
        text = text') ∧
      (tree.Cpp → tree'.Cpp → Delimited (namesIn graph machine [tree, tree']) → text = text' →
        residue graph machine tree .parameter = residue graph machine tree' .parameter)

theorem readByResidue (formed : graph.WellFormed) (machine : Target) {overlay : Overlay graph}
    (sound : overlay.Sound) (modest : overlay.Modest) : ReadByResidue machine overlay := by
  intro id id' tree tree' text text' unfolds unfolds' spelled spelled'
  refine ⟨spelling_congr formed sound modest unfolds unfolds' spelled spelled', ?_⟩
  rintro cpp cpp' delimited rfl
  exact residue_eq formed sound modest unfolds unfolds' spelled spelled' cpp cpp' delimited

end

/-! ## Names without specializations -/

/-- The levels of a name, each with its end mark, and the end mark of the name. -/
def levelChars (idents : List String) : List Char :=
  idents.flatMap (fun ident => ident.toList ++ ['@']) ++ ['@']

theorem ended_append_inj {chars chars' rest rest' : List Char} (inside : '@' ∉ chars)
    (inside' : '@' ∉ chars') (same : chars ++ '@' :: rest = chars' ++ '@' :: rest') :
    chars = chars' ∧ rest = rest' := by
  rcases List.append_eq_append_iff.mp same with ⟨more, rfl, left⟩ | ⟨more, rfl, left⟩
  · cases more with
    | nil => exact ⟨(List.append_nil _).symm, (List.cons.inj left).2⟩
    | cons first others =>
        obtain ⟨rfl, -⟩ := List.cons.inj left
        exact absurd (List.mem_append_right _ List.mem_cons_self) inside'
  · cases more with
    | nil => exact ⟨List.append_nil _, (List.cons.inj left).2.symm⟩
    | cons first others =>
        obtain ⟨rfl, -⟩ := List.cons.inj left
        exact absurd (List.mem_append_right _ List.mem_cons_self) inside

theorem levelChars_append_inj {idents idents' : List String} {rest rest' : List Char}
    (each : ∀ ident ∈ idents, Reader.Legible ident)
    (each' : ∀ ident ∈ idents', Reader.Legible ident)
    (same : levelChars idents ++ rest = levelChars idents' ++ rest') :
    idents = idents' ∧ rest = rest' := by
  have ended {ident : String} (legible : Reader.Legible ident) (further rest : List Char) :
      '@' :: rest ≠ ident.toList ++ further := by
    obtain ⟨⟨first, starts, -⟩, inside⟩ := legible
    intro clash
    cases chars : ident.toList with
    | nil =>
        rw [chars] at starts
        cases starts
    | cons head tail =>
        rw [chars] at clash inside
        exact inside ((List.cons.inj clash).1 ▸ List.mem_cons_self)
  have whole (first : String) (others : List String) (rest : List Char) :
      levelChars (first :: others) ++ rest =
        first.toList ++ '@' :: (levelChars others ++ rest) := by
    simp [levelChars]
  induction idents generalizing idents' with
  | nil =>
      cases idents' with
      | nil => exact ⟨rfl, (List.cons.inj same).2⟩
      | cons first others =>
          rw [whole] at same
          exact absurd same (ended (each' first List.mem_cons_self) _ _)
  | cons first others ih =>
      rw [whole] at same
      cases idents' with
      | nil => exact absurd same.symm (ended (each first List.mem_cons_self) _ _)
      | cons first' others' =>
          rw [whole] at same
          obtain ⟨legible, later⟩ := List.forall_mem_cons.mp each
          obtain ⟨legible', later'⟩ := List.forall_mem_cons.mp each'
          obtain ⟨heads, onward⟩ := ended_append_inj legible.2 legible'.2 same
          obtain ⟨rfl, left⟩ := ih later later' onward
          exact ⟨by rw [String.toList_inj.mp heads], left⟩

theorem full_levelName {graph : Graph} {machine : Target} {plan : Plan} {id : SymbolId}
    {symbol : Symbol} (stored : graph.symbol id = .ok symbol) (ordinary : symbol.IsOrdinary) :
    (plan.levelName graph machine false id).full = .ok [.ident symbol.ident, .text "@"] := by
  obtain ⟨plain, other⟩ := ordinary
  simp only [Plan.levelName, stored, Script.ofExcept]
  rcases symbol with ⟨ident, parent, access, sort⟩
  cases sort with
  | specialization template args => cases plain
  | function info =>
      rcases info with ⟨type, role⟩
      cases role with
      | destructor => exact absurd rfl (other _ rfl)
      | _ => rfl
  | _ => rfl

theorem full_levels {graph : Graph} {machine : Target} {plan : Plan} {ids : List SymbolId}
    {chain : List Symbol}
    (stored : List.Forall₂ (fun id symbol => graph.symbol id = .ok symbol ∧ symbol.IsOrdinary) ids
      chain) : ∃ tokens,
    (Script.concat (ids.map (plan.levelName graph machine false))).full = .ok tokens ∧
      Token.write tokens =
        (chain.map Symbol.ident).flatMap (fun ident => ident.toList ++ ['@']) := by
  induction stored with
  | nil => exact ⟨[], rfl, rfl⟩
  | @cons id symbol ids chain first rest ih =>
      obtain ⟨tokens, written, text⟩ := ih
      refine ⟨[.ident symbol.ident, .text "@"] ++ tokens, ?_, ?_⟩
      · simp only [List.map_cons, Script.concat, Script.full, full_levelName first.1 first.2,
          written]
        rfl
      · rw [Token.write_append, text]
        rfl

/-- The name of an ordinary symbol is the identifiers of its chain. -/
theorem symbolSpelling_of_ordinary {graph : Graph} (formed : graph.WellFormed) (machine : Target)
    {id : SymbolId} (held : graph.Holds (.symbol id)) (ordinary : graph.OrdinaryUpwards id) :
    ∃ chain, graph.Chain id chain ∧
      symbolSpelling graph machine id = .ok (levelChars (chain.map Symbol.ident)) := by
  obtain ⟨levels, found, -⟩ := formed.levels_eq_ok held
  obtain ⟨chain, chained, stored⟩ := ordinary.chain_of_levels formed held found
  obtain ⟨tokens, written, text⟩ : ∃ tokens, (Script.concat (levels.map
      ((Plan.settled formed.order machine).levelName graph machine false))).full = .ok tokens ∧ _ :=
    full_levels stored
  refine ⟨chain, chained, ?_⟩
  rw [symbolSpelling_eq formed formed.order held]
  simp only [Plan.qualifiedName, Plan.levelNames, found, Script.ofExcept, Script.full, written]
  show Except.ok (Token.write (tokens ++ _)) = _
  rw [Token.write_append, text]
  rfl

/-- Names without specializations and destructors tell where they end. -/
theorem delimited_of_ordinary {graph : Graph} (formed : graph.WellFormed) (machine : Target)
    {trees : List TypeTree}
    (held : ∀ tree ∈ trees, ∀ symbol ∈ tree.symbols, graph.Holds (.symbol symbol))
    (ordinary : ∀ tree ∈ trees, ∀ symbol ∈ tree.symbols, graph.OrdinaryUpwards symbol)
    (legible : ∀ id symbol, graph.symbol id = .ok symbol → Reader.Legible symbol.ident) :
    Delimited (namesIn graph machine trees) := by
  have known {name : List Char} (named : namesIn graph machine trees name) :
      ∃ idents, name = levelChars idents ∧ ∀ ident ∈ idents, Reader.Legible ident := by
    rcases named with rfl | ⟨tree, listed, id, inside, spelled⟩
    · exact ⟨["__m128"], rfl, by decide⟩
    · obtain ⟨chain, chained, named⟩ := symbolSpelling_of_ordinary formed machine
        (held tree listed id inside) (ordinary tree listed id inside)
      refine ⟨_, Except.ok.inj (spelled.symm.trans named), fun ident here => ?_⟩
      obtain ⟨symbol, member, rfl⟩ := List.mem_map.mp here
      obtain ⟨name, stored⟩ := chained.stored symbol member
      exact legible name symbol stored
  intro name rest named longer
  obtain ⟨idents, whole, each⟩ := known named
  obtain ⟨idents', whole', each'⟩ := known longer
  have same : levelChars idents ++ rest = levelChars idents' ++ [] := by
    rw [← whole, ← whole', List.append_nil]
  exact (levelChars_append_inj each each' same).2

end LinkName.Microsoft
