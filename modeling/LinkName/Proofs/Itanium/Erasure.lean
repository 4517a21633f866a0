import LinkName.Proofs.Itanium.Orderly
import LinkName.Proofs.Itanium.Written
import LinkName.Proofs.Type.Derivation

/-!
What the text of a type says of it when every look-up misses, and what it leaves out. It leaves out
which of `wchar` and `ushort` a type is, `const` on references, on functions and on what a parameter
is passed as, whether something is passed or returned by reference or is a reference, that a lazy
parameter is no pointer to a function, every linkage but that of C, whether a name is that of a
record or an enumeration and with which base, and that a class is no pointer to its record. The rest
is told: types that are written alike are alike in everything else.
-/
namespace LinkName.Itanium

inductive Erased where
  | basic (kind : BasicType) (isConst : Bool)
  | layer (around : Layer) (isConst : Bool) (inner : Erased)
  /-- A record or an enumeration. Symbols that are written alike are one name. -/
  | named (name : List Char) (isConst : Bool)
  | function (isExternal : Bool) (result : Erased) (params : List Erased) (isVariadic : Bool)

namespace Erased

/-- An erased type is understood once its parts are. -/
@[elab_as_elim, induction_eliminator]
theorem induction {motive : Erased → Prop} (basic : ∀ kind isConst, motive (.basic kind isConst))
    (layer : ∀ around isConst inner, motive inner → motive (.layer around isConst inner))
    (named : ∀ name isConst, motive (.named name isConst))
    (function : ∀ isExternal result params isVariadic, motive result →
      (∀ param ∈ params, motive param) → motive (.function isExternal result params isVariadic))
    (erased : Erased) : motive erased :=
  @Erased.rec motive (fun params => ∀ param ∈ params, motive param) basic layer named function
    (by simp) (fun _ _ first rest => List.forall_mem_cons.mpr ⟨first, rest⟩) erased

def isConst : Erased → Bool
  | .basic _ isConst | .layer _ isConst _ | .named _ isConst => isConst
  | .function _ _ _ _ => false

/-! ## Texts -/

def constChars (isConst : Bool) : List Char := if isConst then ['K'] else []

mutual

/-- What is written behind the mark of `const`. -/
def body (machine : Target) : Erased → List Char
  | .basic kind _ => (builtin machine kind).toList
  | .layer around _ inner => around.opening ++ (constChars inner.isConst ++ body machine inner)
  | .named name _ => name
  | .function isExternal result params isVariadic =>
    'F' :: ((if isExternal then ['Y'] else []) ++
      (constChars result.isConst ++ body machine result) ++
      bodies machine params ++ (if isVariadic then ['z'] else []) ++ ['E'])

def bodies (machine : Target) : List Erased → List Char
  | [] => []
  | first :: rest => constChars first.isConst ++ body machine first ++ bodies machine rest

end

def chars (machine : Target) (erased : Erased) : List Char :=
  constChars erased.isConst ++ erased.body machine

variable (machine : Target)

theorem bodies_eq (params : List Erased) :
    bodies machine params = params.flatMap (chars machine) := by
  induction params with
  | nil => rfl
  | cons first rest ih => rw [bodies, ih, List.flatMap_cons, chars]

theorem body_layer (around : Layer) (isConst : Bool) (inner : Erased) :
    (layer around isConst inner).body machine = around.opening ++ inner.chars machine := rfl

theorem body_function (isExternal : Bool) (result : Erased) (params : List Erased)
    (isVariadic : Bool) :
    (function isExternal result params isVariadic).body machine =
      'F' :: ((if isExternal then ['Y'] else []) ++ (result.chars machine ++
        (params.flatMap (chars machine) ++ ((if isVariadic then ['z'] else []) ++ ['E'])))) := by
  simp only [body, bodies_eq, chars, List.append_assoc]

end Erased

/-! ## Erasure -/

namespace Erased

/-- The type in which something of this type is passed by value. -/
def withoutConst : Erased → Erased
  | .basic kind _ => .basic kind false
  | .layer .pointer _ inner => .layer .pointer false inner
  | .named name _ => .named name false
  | erased => erased

def void : Erased := .basic .void false

/-- What a parameter is written as. -/
def passed : Passing × Erased → Erased
  | (.value, type) => type.withoutConst
  | (.ref, type) | (.out, type) => .layer .reference false type
  | (.lazy, type) => .layer .pointer false (.function false type [void] false)

def returned (convention : Convention) (result : Erased) : Erased :=
  if convention.refResult then .layer .reference false result else result

/-- No parameters are written as one that is `void`. -/
def listed (params : List Erased) (isVariadic : Bool) : List Erased :=
  if params.isEmpty && !isVariadic then [void] else params

theorem chars_listed (machine : Target) (params : List Erased) (isVariadic : Bool) :
    (listed params isVariadic).flatMap (chars machine) ++ (if isVariadic then ['z'] else []) =
      params.flatMap (chars machine) ++
        Token.write (Plan.parameterEnd isVariadic params.isEmpty) := by
  have chars_void : chars machine void = "v".toList := by
    simp [chars, constChars, void, isConst, body, builtin]
  cases params <;> cases isVariadic <;>
    simp [listed, chars_void, Plan.parameterEnd, Token.write, Token.chars]

end Erased

/-- What is left of a type, with the names of symbols in its place. Types that C++ does not have are
never written, so it does not matter what is left of them. -/
def erase (name : SymbolId → List Char) : TypeTree → Erased :=
  TypeTree.fold
    { basic := fun kind quals => .basic kind.normal quals.isConst
      layer := fun around inner quals => .layer around (around.marks quals.isConst) inner
      named := fun naming symbol quals =>
        match naming with
        | .record | .enumeration _ => .named (name symbol) quals.isConst
        | .classRef => .layer .pointer quals.isConst (.named (name symbol) quals.isConst)
        | .typedef => .void
      assocArray := fun _ _ _ => .void
      function := fun result params convention _ =>
        .function (decide (convention.linkage = .c)) (.returned convention result)
          (Erased.listed (params.map .passed) convention.variadic) convention.variadic }

/-- What is left of a type where it stands. The `const` of a class does not apply to the pointer where
the class is the type of a parameter. -/
def erasedAt (name : SymbolId → List Char) (tree : TypeTree) (place : Place) : Erased :=
  match place, tree with
  | .outermost, .named .classRef _ _ => (erase name tree).withoutConst
  | _, _ => erase name tree

section

variable (name : SymbolId → List Char)

theorem erasedAt_nested (tree : TypeTree) : erasedAt name tree .nested = erase name tree := rfl

theorem erase_returned (convention : Convention) (result : TypeTree) :
    erase name (.returned convention result) = .returned convention (erase name result) := by
  unfold TypeTree.returned Erased.returned
  split <;> rfl

theorem erasedAt_withoutConst (tree : TypeTree) :
    erasedAt name tree.withoutConst .outermost = (erase name tree).withoutConst := by
  cases tree with
  | basic kind quals => rcases quals with ⟨_ | _, _, _⟩ <;> rfl
  | layer around inner quals =>
      cases around
      case pointer => rcases quals with ⟨_ | _, _, _⟩ <;> rfl
      all_goals rfl
  | named naming symbol quals =>
      cases naming
      case record | enumeration => rcases quals with ⟨_ | _, _, _⟩ <;> rfl
      all_goals rfl
  | assocArray key value quals => rfl
  | function result params convention quals =>
      have kept : (TypeTree.function result params convention quals).withoutConst =
          .function result params convention quals := rfl
      simp only [kept, erasedAt, erase, TypeTree.fold_function, Erased.withoutConst]

theorem erase_thunk (result : TypeTree) :
    erase name (.thunk result) = .passed (.lazy, erase name result) := by
  have function : erase name (.function result [] {} {}) =
      .function false (erase name result) [.void] false := by
    simp only [erase, TypeTree.fold_function]
    rfl
  exact congrArg (Erased.layer .pointer false) function

theorem erasedAt_parameter (param : Passing × TypeTree) :
    erasedAt name (TypeTree.parameter param) .outermost =
      .passed (param.1, erase name param.2) := by
  obtain ⟨passing, type⟩ := param
  cases passing with
  | value => exact erasedAt_withoutConst name type
  | ref | out => rfl
  | lazy => exact erase_thunk name type

theorem erase_function (result : TypeTree) (params : List (Passing × TypeTree))
    (convention : Convention) (quals : Qualifiers) :
    erase name (.function result params convention quals) =
      .function (decide (convention.linkage = .c)) (erase name (.returned convention result))
        (Erased.listed
          (params.map fun param => erasedAt name (TypeTree.parameter param) .outermost)
          convention.variadic) convention.variadic := by
  rw [erase_returned]
  simp only [erase, TypeTree.fold_function, List.map_map, Function.comp_def, erasedAt_parameter]

end

/-! ## Reading back -/

/-- The text can follow a type: it does not go on as the arguments of a specialization. -/
def Resumes (rest : List Char) : Prop := 'I' ∉ rest.head?

/-- Names that tell where they end: none is the beginning of another one, unless it is the name of a
template and the other one goes on with arguments. -/
structure Delimited (names : List Char → Prop) : Prop where
  opens : ∀ name, names name → Sign.name.Opens name
  apart : ∀ name rest, names name → names (name ++ rest) → Resumes rest → rest = []

theorem Delimited.append_inj {names : List Char → Prop} (delimited : Delimited names)
    {name other rest rest' : List Char} (named : names name) (named' : names other)
    (resumes : Resumes rest) (resumes' : Resumes rest') (same : name ++ rest = other ++ rest') :
    name = other ∧ rest = rest' := by
  have ends {name more rest : List Char} (named : names name) (longer : names (name ++ more))
      (resumes : Resumes (more ++ rest)) : more = [] := by
    refine delimited.apart name more named longer fun starts => resumes ?_
    rw [List.head?_append, Option.mem_def.mp starts]
    exact rfl
  rcases List.append_eq_append_iff.mp same with ⟨more, rfl, rfl⟩ | ⟨more, rfl, rfl⟩
  · obtain rfl := ends named named' resumes
    exact ⟨(List.append_nil name).symm, rfl⟩
  · obtain rfl := ends named' named resumes'
    exact ⟨List.append_nil other, rfl⟩

theorem Sign.Opens.resumes {sign : Sign} {chars : List Char} (opens : sign.Opens chars) :
    Resumes chars := by
  obtain ⟨first, others, rfl, known⟩ := opens
  intro starts
  obtain rfl : first = 'I' := Option.some.inj starts
  cases known

namespace Erased

/-- What can be left of a type that is written, with symbols of these names. -/
inductive Formed (names : List Char → Prop) : Erased → Prop
  | basic (kind : BasicType) (isConst : Bool) : Formed names (.basic kind.normal isConst)
  | layer {around : Layer} {sign : Sign} {inner : Erased} (known : around.sign? = some sign)
      (isConst : Bool) (formed : Formed names inner) :
      Formed names (.layer around (around.marks isConst) inner)
  | named {name : List Char} (isConst : Bool) (known : names name) :
      Formed names (.named name isConst)
  | function {result : Erased} {params : List Erased} {isVariadic : Bool} (isExternal : Bool)
      (formed : Formed names result) (each : ∀ param ∈ params, Formed names param) :
      Formed names (.function isExternal result params isVariadic)

theorem Formed.listed {names : List Char → Prop} {params : List Erased} {isVariadic : Bool}
    (each : ∀ param ∈ params, param.Formed names) :
    ∀ param ∈ Erased.listed params isVariadic, param.Formed names := by
  unfold Erased.listed
  split
  · exact List.forall_mem_singleton.mpr (.basic .void false)
  · exact each

/-- The kind of type that the text is taken for. -/
def sign? : Erased → Option Sign
  | .basic _ _ => some .basic
  | .layer around _ _ => around.sign?
  | .named _ _ => some .name
  | .function _ _ _ _ => some .function

variable {names : List Char → Prop} {machine : Target} {erased other : Erased}
variable {rest rest' : List Char}

theorem Formed.opens (delimited : Delimited names) (formed : erased.Formed names) :
    ∃ sign, erased.sign? = some sign ∧ sign.Opens (erased.body machine) := by
  cases formed with
  | basic kind isConst => exact ⟨_, rfl, opens_builtin machine kind.normal⟩
  | layer known isConst formed => exact ⟨_, known, (Layer.opens_opening known).append _⟩
  | named isConst known => exact ⟨_, rfl, delimited.opens _ known⟩
  | function isExternal formed each => exact ⟨_, rfl, 'F', _, rfl, rfl⟩

theorem Formed.resumes (delimited : Delimited names) (formed : erased.Formed names)
    (rest : List Char) : Resumes (erased.chars machine ++ rest) := by
  obtain ⟨sign, -, opens⟩ := formed.opens delimited
  unfold chars constChars
  cases erased.isConst with
  | false => exact (opens.append rest).resumes
  | true => exact fun starts => by cases starts

/-- No type is taken for the end of a list. -/
theorem Formed.ne_end (delimited : Delimited names) (formed : erased.Formed names)
    (ends : Ends rest') : erased.chars machine ++ rest ≠ rest' := by
  obtain ⟨sign, -, opens⟩ := formed.opens delimited
  rw [chars, List.append_assoc]
  exact (opens.append rest).ne_end ends _

/-- Where texts go on alike with the type and with another one, the two are one. -/
def Legible (names : List Char → Prop) (machine : Target) (erased : Erased) : Prop :=
  ∀ other rest rest', other.Formed names → Resumes rest → Resumes rest' →
    erased.chars machine ++ rest = other.chars machine ++ rest' → erased = other ∧ rest = rest'

theorem resumes_flatMap (delimited : Delimited names) {params : List Erased}
    (each : ∀ param ∈ params, param.Formed names) (resumes : Resumes rest) :
    Resumes (params.flatMap (chars machine) ++ rest) := by
  cases params with
  | nil => exact resumes
  | cons first others =>
      rw [List.flatMap_cons, List.append_assoc]
      exact (each first List.mem_cons_self).resumes delimited _

theorem flatMap_append_inj (delimited : Delimited names) {params params' : List Erased}
    (legible : ∀ param ∈ params, param.Legible names machine)
    (each : ∀ param ∈ params, param.Formed names) (each' : ∀ param ∈ params', param.Formed names)
    (ends : Ends rest) (ends' : Ends rest') (resumes : Resumes rest) (resumes' : Resumes rest')
    (same : params.flatMap (chars machine) ++ rest = params'.flatMap (chars machine) ++ rest') :
    params = params' ∧ rest = rest' := by
  induction params generalizing params' with
  | nil =>
      cases params' with
      | nil => exact ⟨rfl, same⟩
      | cons first others =>
          rw [List.flatMap_cons, List.append_assoc] at same
          exact absurd same.symm ((each' first List.mem_cons_self).ne_end delimited ends)
  | cons first others ih =>
      rw [List.flatMap_cons, List.append_assoc] at same
      cases params' with
      | nil => exact absurd same ((each first List.mem_cons_self).ne_end delimited ends')
      | cons first' others' =>
          rw [List.flatMap_cons, List.append_assoc] at same
          obtain ⟨head, tail⟩ := List.forall_mem_cons.mp each
          obtain ⟨head', tail'⟩ := List.forall_mem_cons.mp each'
          obtain ⟨rfl, onward⟩ := legible first List.mem_cons_self first' _ _ head'
            (resumes_flatMap delimited tail resumes) (resumes_flatMap delimited tail' resumes') same
          obtain ⟨rfl, left⟩ := ih (List.forall_mem_cons.mp legible).2 tail tail' onward
          exact ⟨rfl, left⟩

/-! The end of a parameter list. -/

theorem ends_end (isVariadic : Bool) (rest : List Char) :
    Ends ((if isVariadic then ['z'] else []) ++ 'E' :: rest) := by
  cases isVariadic <;> simp [Ends]

theorem resumes_end (isVariadic : Bool) (rest : List Char) :
    Resumes ((if isVariadic then ['z'] else []) ++ 'E' :: rest) := by
  cases isVariadic <;> simp [Resumes]

theorem end_append_inj {isVariadic isVariadic' : Bool}
    (same : (if isVariadic then ['z'] else []) ++ 'E' :: rest =
      (if isVariadic' then ['z'] else []) ++ 'E' :: rest') :
    isVariadic = isVariadic' ∧ rest = rest' := by
  cases isVariadic <;> cases isVariadic' <;> simp_all

/-- The mark of C linkage can be told from the result type behind it. -/
theorem external_append_inj (delimited : Delimited names) {isExternal isExternal' : Bool}
    (formed : erased.Formed names) (formed' : other.Formed names)
    (same : (if isExternal then ['Y'] else []) ++ (erased.chars machine ++ rest) =
      (if isExternal' then ['Y'] else []) ++ (other.chars machine ++ rest')) :
    isExternal = isExternal' ∧ erased.chars machine ++ rest = other.chars machine ++ rest' := by
  have ends (further : List Char) : Ends ('Y' :: further) := by simp [Ends]
  cases isExternal <;> cases isExternal'
  · exact ⟨rfl, same⟩
  · exact absurd same (formed.ne_end delimited (ends _))
  · exact absurd same.symm (formed'.ne_end delimited (ends _))
  · exact ⟨rfl, (List.cons.inj same).2⟩

theorem chars_append_eq (delimited : Delimited names) (formed : erased.Formed names)
    (formed' : other.Formed names)
    (same : erased.chars machine ++ rest = other.chars machine ++ rest') :
    erased.isConst = other.isConst ∧ erased.sign? = other.sign? ∧
      erased.body machine ++ rest = other.body machine ++ rest' := by
  obtain ⟨sign, known, opens⟩ :
      ∃ sign, erased.sign? = some sign ∧ sign.Opens (erased.body machine) :=
    formed.opens delimited
  obtain ⟨sign', known', opens'⟩ :
      ∃ sign', other.sign? = some sign' ∧ sign'.Opens (other.body machine) :=
    formed'.opens delimited
  rw [chars, chars, List.append_assoc, List.append_assoc] at same
  obtain ⟨consts, onward⟩ := Sign.mark_append_inj (opens.append rest) (opens'.append rest') same
  obtain rfl := (opens.append rest).sign_eq (onward ▸ opens'.append rest')
  exact ⟨consts, known.trans known'.symm, onward⟩

/-- A type is read back from its text, whatever follows. -/
theorem Formed.legible (delimited : Delimited names) (formed : erased.Formed names) :
    erased.Legible names machine := by
  induction formed with
  | basic kind isConst =>
      intro other rest rest' formed' _ _ same
      obtain ⟨consts, signs, onward⟩ := chars_append_eq delimited (.basic kind isConst) formed' same
      cases formed' with
      | basic kind' isConst' =>
          obtain ⟨kinds, left⟩ := builtin_append_inj onward
          rw [BasicType.normal_normal, BasicType.normal_normal] at kinds
          obtain rfl : isConst = isConst' := consts
          exact ⟨by rw [kinds], left⟩
      | layer known =>
          exact absurd (Option.some.inj (known.symm.trans signs.symm)) (Layer.sign?_ne known).2.2.1
      | named | function => cases signs
  | @layer around sign inner known isConst formed ih =>
      intro other rest rest' formed' resumes resumes' same
      obtain ⟨consts, signs, onward⟩ :=
        chars_append_eq delimited (.layer known isConst formed) formed' same
      have apart := Layer.sign?_ne known
      cases formed' with
      | layer known' isConst' formed' =>
          rw [body_layer, body_layer, List.append_assoc, List.append_assoc] at onward
          obtain ⟨rfl, below⟩ := Layer.opening_append_inj known (signs.symm.trans known) onward
          obtain ⟨rfl, left⟩ := ih _ _ _ formed' resumes resumes' below
          have marked : around.marks isConst = around.marks isConst' := consts
          exact ⟨by rw [marked], left⟩
      | basic => exact absurd (Option.some.inj (known.symm.trans signs)) apart.2.2.1
      | named => exact absurd (Option.some.inj (known.symm.trans signs)) apart.2.1
      | function => exact absurd (Option.some.inj (known.symm.trans signs)) apart.2.2.2
  | named isConst known =>
      intro other rest rest' formed' resumes resumes' same
      obtain ⟨consts, signs, onward⟩ :=
        chars_append_eq delimited (.named isConst known) formed' same
      cases formed' with
      | named isConst' known' =>
          obtain rfl : isConst = isConst' := consts
          obtain ⟨rfl, left⟩ := delimited.append_inj known known' resumes resumes' onward
          exact ⟨rfl, left⟩
      | layer known =>
          exact absurd (Option.some.inj (known.symm.trans signs.symm)) (Layer.sign?_ne known).2.1
      | basic | function => cases signs
  | @function result params isVariadic isExternal formed each ih ihs =>
      intro other rest rest' formed' resumes resumes' same
      obtain ⟨-, signs, onward⟩ :=
        chars_append_eq delimited (.function isExternal formed each) formed' same
      cases formed' with
      | @function result' params' isVariadic' isExternal' formed' each' =>
          rw [body_function, body_function] at onward
          simp only [List.cons_append, List.append_assoc, List.cons.injEq, true_and] at onward
          obtain ⟨rfl, behind⟩ := external_append_inj delimited formed formed' onward
          obtain ⟨rfl, further⟩ :=
            ih _ _ _ formed' (resumes_flatMap delimited each (resumes_end _ _))
            (resumes_flatMap delimited each' (resumes_end _ _)) behind
          obtain ⟨rfl, ending⟩ := flatMap_append_inj delimited ihs each each' (ends_end _ _)
            (ends_end _ _) (resumes_end _ _) (resumes_end _ _) further
          obtain ⟨rfl, left⟩ := end_append_inj ending
          exact ⟨rfl, left⟩
      | layer known =>
          exact absurd (Option.some.inj (known.symm.trans signs.symm)) (Layer.sign?_ne known).2.2.2
      | basic | named => cases signs

end Erased

/-! ## Texts of types -/

theorem builtin_normal (machine : Target) (basic : BasicType) :
    builtin machine basic.normal = builtin machine basic := by
  cases basic <;> rfl

theorem write_constMark_eq (isConst : Bool) :
    Token.write (Plan.constMark isConst) = Erased.constChars isConst := write_constMark isConst

/-- The text of a type if every look-up misses. -/
def spelling {graph : Graph} (machine : Target) (overlay : Overlay graph) (id : TypeId)
    (place : Place) : Except Refusal (List Char) :=
  Token.write <$> Encoder.outcomeFrom overlay
    ((encoding machine (Encoder.depthBound graph)).type id place) (Table.bounded 0)

section

variable (graph : Graph) (machine : Target)

/-- The name of a symbol if every look-up misses. -/
def symbolSpelling (id : SymbolId) : Except Refusal (List Char) :=
  Token.write <$> Encoder.outcome
    (mention (encoding machine (Encoder.depthBound graph) : Encoding graph) id) (Table.bounded 0)

/-- The same; nothing if the symbol has no name. -/
def symbolChars (id : SymbolId) : List Char := (symbolSpelling graph machine id).toOption.getD []

/-- What is left of a type of the graph where it stands. -/
abbrev residue (tree : TypeTree) (place : Place) : Erased :=
  erasedAt (symbolChars graph machine) tree place

/-- The names of the records, enumerations and classes that the types mention. -/
def namesIn (trees : List TypeTree) (name : List Char) : Prop :=
  ∃ tree ∈ trees, ∃ symbol ∈ tree.symbols, symbolSpelling graph machine symbol = .ok name

end

section

variable {graph : Graph} {machine : Target}

theorem Follows.full {overlay : Overlay graph} {computation : Encoder graph (List Token)}
    {script : Script} (follows : Follows overlay computation script) (sound : overlay.Sound) :
    Encoder.outcomeFrom overlay computation (Table.bounded 0) = script.full := by
  have empty : (reading graph).relates overlay (Table.bounded 0) (Table.bounded 0) := ⟨rfl, .nil⟩
  rw [follows.outcomeFrom sound empty, StateT.run, Script.run_of_full_table]
  cases script.full <;> rfl

theorem symbolSpelling_eq (formed : graph.WellFormed) (order : graph.Order) {id : SymbolId}
    (held : graph.Holds (.symbol id)) : symbolSpelling graph machine id =
      Token.write <$> (Plan.mention graph (Plan.settled order machine) id).full := by
  have follows : Follows {} (mention (encoding machine (Encoder.depthBound graph)) id)
      (Plan.mention graph (Plan.within graph machine (Encoder.depthBound graph)) id) :=
    (followsPlan_within formed machine (Encoder.depthBound graph)).mention formed held
  rw [symbolSpelling, ← Encoder.outcomeFrom_empty, follows.full (Overlay.sound_empty formed),
    Plan.mention_congr formed held fun part listed => ?_]
  obtain ⟨heldPart, less⟩ := Item.below_ofMention formed order id part listed
  exact Plan.within_eq_settled formed order heldPart
    (less.trans_le (Encoder.rank_le_depthBound order held))

end

namespace Plan

variable {graph : Graph} {machine : Target} {order : graph.Order} {names : List Char → Prop}

/-- The symbols of the type that have names have these names. -/
def Admits (graph : Graph) (machine : Target) (names : List Char → Prop) (tree : TypeTree) : Prop :=
  ∀ symbol ∈ tree.symbols, ∀ name, symbolSpelling graph machine symbol = .ok name → names name

section

variable {result : TypeTree} {params : List (Passing × TypeTree)} {convention : Convention}
variable {quals : Qualifiers}
variable (admits : Admits graph machine names (.function result params convention quals))
include admits

theorem Admits.returned : Admits graph machine names (.returned convention result) := by
  intro symbol listed
  rw [TypeTree.symbols_returned] at listed
  exact admits symbol (TypeTree.mem_symbols_function.mpr (.inl listed))

theorem Admits.parameter {param : Passing × TypeTree} (known : param ∈ params) :
    Admits graph machine names (TypeTree.parameter param) := by
  intro symbol listed
  rw [TypeTree.parameter, TypeTree.symbols_withoutConst, TypeTree.symbols_passed] at listed
  exact admits symbol (TypeTree.mem_symbols_function.mpr (.inr ⟨param, known, listed⟩))

end

/-- The full text of the type says what is left of it. -/
def Tells (order : graph.Order) (machine : Target) (names : List Char → Prop) (tree : TypeTree)
    (place : Place) : Prop :=
  ∀ tokens, (settled order machine (.type tree place)).full = .ok tokens →
    Token.write tokens = (residue graph machine tree place).chars machine ∧
      (residue graph machine tree place).Formed names

theorem full_parameter {param : Passing × TypeTree} {tokens : List Token}
    (whole : (parameter graph (settled order machine) param).full = .ok tokens) :
    (settled order machine (.type (TypeTree.parameter param) .outermost)).full = .ok tokens := by
  unfold parameter at whole
  split at whole
  · cases whole
  · exact whole

theorem tells_listed {params : List (Passing × TypeTree)}
    (tells : ∀ param ∈ params, Tells order machine names (TypeTree.parameter param) .outermost)
    {tokens : List Token}
    (whole : (Script.concat (params.map (parameter graph (settled order machine)))).full =
      .ok tokens) :
    Token.write tokens = (params.map fun param =>
        residue graph machine (TypeTree.parameter param) .outermost).flatMap
          (Erased.chars machine) ∧
      ∀ erased ∈ params.map fun param =>
        residue graph machine (TypeTree.parameter param) .outermost,
          erased.Formed names := by
  induction params generalizing tokens with
  | nil =>
      cases whole
      exact ⟨rfl, nofun⟩
  | cons first others ih =>
      obtain ⟨head, tail⟩ := List.forall_mem_cons.mp tells
      obtain ⟨before, after, begun, further, rfl⟩ := Script.full_append whole
      obtain ⟨text, formed⟩ := head before (full_parameter begun)
      obtain ⟨texts, each⟩ := ih tail further
      rw [Token.write_append, text, texts, List.map_cons, List.flatMap_cons]
      exact ⟨rfl, List.forall_mem_cons.mpr ⟨formed, each⟩⟩

theorem tells_parameters {params : List (Passing × TypeTree)}
    (tells : ∀ param ∈ params, Tells order machine names (TypeTree.parameter param) .outermost)
    {isVariadic : Bool} {tokens : List Token}
    (whole : (parameters graph (settled order machine) params isVariadic).full = .ok tokens) :
    let listed := Erased.listed (params.map fun param =>
      residue graph machine (TypeTree.parameter param) .outermost) isVariadic
    Token.write tokens =
        listed.flatMap (Erased.chars machine) ++ (if isVariadic then ['z'] else []) ∧
      ∀ erased ∈ listed, erased.Formed names := by
  obtain ⟨written, ending, wrote, ended, rfl⟩ := Script.full_append whole
  cases ended
  obtain ⟨text, each⟩ := tells_listed tells wrote
  refine ⟨?_, Erased.Formed.listed each⟩
  rw [Token.write_append, text, Erased.chars_listed, List.isEmpty_map]

theorem tells_named {naming : Naming} {symbol : SymbolId} {quals : Qualifiers} {place : Place}
    (formed : graph.WellFormed) (held : graph.Holds (.symbol symbol))
    (admits : ∀ name, symbolSpelling graph machine symbol = .ok name → names name)
    {tokens : List Token}
    (whole : (namedType graph (settled order machine) naming symbol quals place).full =
      .ok tokens) :
    Token.write tokens =
        (residue graph machine (.named naming symbol quals) place).chars machine ∧
      (residue graph machine (.named naming symbol quals) place).Formed names := by
  have spelling {tokens : List Token}
      (wrote : (mention graph (settled order machine) symbol).full = .ok tokens) :
      symbolSpelling graph machine symbol = .ok (Token.write tokens) := by
    rw [symbolSpelling_eq formed order held, wrote]
    rfl
  have spelled {tokens : List Token}
      (wrote : (mention graph (settled order machine) symbol).full = .ok tokens) :
      Token.write tokens = symbolChars graph machine symbol := by
    rw [symbolChars, spelling wrote]
    rfl
  cases naming with
  | record | enumeration base =>
      change (Script.thenStoreIf _ _ _).full = _ at whole
      rw [Script.full_thenStoreIf] at whole
      obtain ⟨name, wrote, rfl⟩ := Script.full_write_append whole
      have known := admits _ (spelling wrote)
      rw [spelled wrote] at known
      rw [Token.write_append, write_constMark_eq, spelled wrote]
      cases place <;> exact ⟨rfl, .named quals.isConst known⟩
  | classRef =>
      change (Script.thenStoreIf _ _ _).full = _ at whole
      rw [Script.full_thenStoreIf] at whole
      obtain ⟨name, wrote, rfl⟩ := Script.full_write_append whole
      have known := admits _ (spelling wrote)
      rw [spelled wrote] at known
      have pointer (isConst : Bool) : (Erased.layer .pointer isConst
          (.named (symbolChars graph machine symbol) quals.isConst)).Formed names := by
        have marked : Layer.pointer.marks isConst = isConst := Bool.and_true isConst
        exact marked ▸ .layer rfl isConst (.named quals.isConst known)
      simp only [Token.write_append, write_constMark_eq, write_singleton, spelled wrote]
      cases place with
      | nested =>
          simp only [if_true, write_constMark_eq, List.append_assoc]
          exact ⟨rfl, pointer _⟩
      | outermost => exact ⟨rfl, pointer _⟩
  | typedef => cases whole

theorem tells_basic {basic : BasicType} {quals : Qualifiers} {place : Place} {tokens : List Token}
    (whole : (basicType machine basic quals).full = .ok tokens) :
    Token.write tokens = (residue graph machine (.basic basic quals) place).chars machine ∧
      (residue graph machine (.basic basic quals) place).Formed names := by
  have wrote : tokens = constMark quals.isConst ++ [.text (builtin machine basic)] := by
    unfold basicType at whole
    split at whole <;> exact (Except.ok.inj whole).symm
  have left : residue graph machine (.basic basic quals) place =
      .basic basic.normal quals.isConst := by cases place <;> rfl
  rw [wrote, Token.write_append, write_constMark_eq, write_singleton, left]
  refine ⟨?_, .basic basic quals.isConst⟩
  simp only [Erased.chars, Erased.body, builtin_normal]
  rfl

theorem tells_layer {around : Layer} {inner : TypeTree} {quals : Qualifiers} {place : Place}
    {lead tokens : List Token} (led : around.itaniumLead? quals.isConst = some lead)
    (tells : Tells order machine names inner .nested)
    (whole : (Script.append (.write lead) (settled order machine (.type inner .nested))).full =
      .ok tokens) :
    Token.write tokens = (residue graph machine (.layer around inner quals) place).chars machine ∧
      (residue graph machine (.layer around inner quals) place).Formed names := by
  obtain ⟨rest, below, rfl⟩ := Script.full_write_append whole
  obtain ⟨opening, sign, known⟩ := Layer.write_itaniumLead led
  obtain ⟨text, formed⟩ := tells rest below
  have left : residue graph machine (.layer around inner quals) place =
      .layer around (around.marks quals.isConst) (erase (symbolChars graph machine) inner) := by
    cases place <;> rfl
  rw [Token.write_append, opening, text, left]
  refine ⟨?_, .layer known quals.isConst formed⟩
  exact List.append_assoc _ _ _

theorem tells_function {result : TypeTree} {params : List (Passing × TypeTree)}
    {convention : Convention} {quals : Qualifiers} {place : Place} {tokens : List Token}
    (returns : Tells order machine names (.returned convention result) .nested)
    (takes : ∀ param ∈ params, Tells order machine names (TypeTree.parameter param) .outermost)
    (whole : (functionType graph (settled order machine) result params convention).full =
      .ok tokens) :
    Token.write tokens =
        (residue graph machine (.function result params convention quals) place).chars machine ∧
      (residue graph machine (.function result params convention quals) place).Formed names := by
  obtain ⟨_, inner, rfl⟩ := Script.full_write_append whole
  obtain ⟨resultTokens, _, returned, rest, rfl⟩ := Script.full_append inner
  obtain ⟨listed, ending, passed, closing, rfl⟩ := Script.full_append rest
  cases closing
  obtain ⟨text, formedResult⟩ := returns resultTokens returned
  obtain ⟨texts, each⟩ := tells_parameters takes passed
  have left : residue graph machine (.function result params convention quals) place =
      erase (symbolChars graph machine) (.function result params convention quals) := by
    cases place <;> rfl
  rw [left, erase_function]
  refine ⟨?_, .function _ formedResult each⟩
  have lead : Token.write (.text "F" :: if convention.linkage = .c then [.text "Y"] else []) =
      'F' :: if decide (convention.linkage = .c) then ['Y'] else [] := by
    split <;> simp_all [Token.write, Token.chars]
  rw [Erased.chars, Erased.body_function, Token.write_append, lead, Token.write_append, text,
    Token.write_append, texts]
  simp [Erased.constChars, Erased.isConst, erasedAt_nested, Token.write, Token.chars]

theorem tells_type (formed : graph.WellFormed) {tree : TypeTree} {place : Place}
    (held : (LinkName.Item.type tree place : Item).Held graph)
    (admits : Admits graph machine names tree) : Tells order machine names tree place := by
  refine LinkName.Item.induction (Item.descends formed) order (motive := fun item =>
    ∀ tree place, item = .type tree place → Admits graph machine names tree →
      Tells order machine names tree place) ?_ held tree place rfl admits
  rintro _ held parts tree place rfl admits tokens whole
  rw [settled_eq formed order held] at whole
  change (type graph machine _ tree place).full = _ at whole
  unfold type at whole
  split at whole
  · cases whole
  cases tree with
  | basic basic quals => exact tells_basic whole
  | layer around inner quals =>
      simp only at whole
      cases led : around.itaniumLead? quals.isConst with
      | none =>
          rw [led] at whole
          cases whole
      | some lead =>
          rw [led] at whole
          exact tells_layer led (parts _ List.mem_cons_self _ _ rfl admits) whole
  | named naming symbol quals =>
      exact tells_named formed (held symbol List.mem_cons_self) (admits symbol List.mem_cons_self)
        whole
  | assocArray key value quals => cases whole
  | function result params convention quals =>
      have returns := parts _ List.mem_cons_self _ _ rfl admits.returned
      have takes (param) (known : param ∈ params) := parts _
        (List.mem_cons_of_mem _ (List.mem_map_of_mem known)) _ _ rfl (admits.parameter known)
      exact tells_function returns takes whole

end Plan

/-! ## Types of a session -/

section

variable {graph : Graph} {machine : Target} {overlay : Overlay graph} {id id' : TypeId}
variable {tree tree' : TypeTree} {place place' : Place} {text text' : List Char}

theorem spelling_eq (formed : graph.WellFormed) (order : graph.Order) (sound : overlay.Sound)
    (modest : overlay.Modest) (unfolds : overlay.Unfolds id tree) :
    spelling machine overlay id place =
      Token.write <$> (Plan.settled order machine (.type tree place)).full := by
  have follows := (followsPlan_within formed machine (Encoder.depthBound graph)).type overlay id
    tree place unfolds
  have held : (LinkName.Item.type tree place : Item).Held graph :=
    sound.holds_symbols formed unfolds
  have deep : (LinkName.Item.type tree place : Item).need order < Encoder.depthBound graph :=
    modest.weight_lt formed order unfolds
  rw [spelling, follows.full sound, Plan.within_eq_settled formed order held deep]

/-- The text of a type is that of what is left of it. -/
theorem chars_residue (formed : graph.WellFormed) (sound : overlay.Sound) (modest : overlay.Modest)
    (unfolds : overlay.Unfolds id tree) (spelled : spelling machine overlay id place = .ok text)
    (names : List Char → Prop) (admits : Plan.Admits graph machine names tree) :
    text = (residue graph machine tree place).chars machine ∧
      (residue graph machine tree place).Formed names := by
  rw [spelling_eq formed formed.order sound modest unfolds] at spelled
  cases whole : (Plan.settled formed.order machine (.type tree place)).full with
  | error refusal =>
      rw [whole] at spelled
      cases spelled
  | ok tokens =>
      rw [whole] at spelled
      cases spelled
      exact Plan.tells_type formed (sound.holds_symbols formed unfolds) admits tokens whole

theorem spelling_congr (formed : graph.WellFormed) (sound : overlay.Sound)
    (modest : overlay.Modest) (unfolds : overlay.Unfolds id tree)
    (unfolds' : overlay.Unfolds id' tree') (spelled : spelling machine overlay id place = .ok text)
    (spelled' : spelling machine overlay id' place' = .ok text')
    (same : residue graph machine tree place = residue graph machine tree' place') :
    text = text' := by
  obtain ⟨whole, -⟩ := chars_residue formed sound modest unfolds spelled (fun _ => True)
    fun _ _ _ _ => trivial
  obtain ⟨whole', -⟩ := chars_residue formed sound modest unfolds' spelled' (fun _ => True)
    fun _ _ _ _ => trivial
  rw [whole, whole', same]

theorem residue_eq (formed : graph.WellFormed) (sound : overlay.Sound)
    (modest : overlay.Modest) (unfolds : overlay.Unfolds id tree)
    (unfolds' : overlay.Unfolds id' tree') (spelled : spelling machine overlay id place = .ok text)
    (spelled' : spelling machine overlay id' place' = .ok text)
    (delimited : Delimited (namesIn graph machine [tree, tree'])) :
    residue graph machine tree place = residue graph machine tree' place' := by
  have admits : ∀ type ∈ [tree, tree'],
      Plan.Admits graph machine (namesIn graph machine [tree, tree']) type :=
    fun type listed symbol inside _ named => ⟨type, listed, symbol, inside, named⟩
  obtain ⟨whole, left⟩ := chars_residue formed sound modest unfolds spelled _
    (admits tree List.mem_cons_self)
  obtain ⟨whole', left'⟩ := chars_residue formed sound modest unfolds' spelled' _
    (admits tree' (List.mem_cons_of_mem _ List.mem_cons_self))
  have same : (residue graph machine tree place).chars machine ++ [] =
      (residue graph machine tree' place').chars machine ++ [] := by
    rw [← whole, ← whole']
  exact (left.legible delimited _ [] [] left' nofun nofun same).1

/-- Types that the session knows are written alike where the same is left of them, and only there if
the names that they are made of tell where they end. -/
def ReadByResidue (machine : Target) (overlay : Overlay graph) : Prop :=
  ∀ id id' tree tree' place place' text text', overlay.Unfolds id tree → overlay.Unfolds id' tree' →
    spelling machine overlay id place = .ok text → spelling machine overlay id' place' = .ok text' →
    (residue graph machine tree place = residue graph machine tree' place' → text = text') ∧
      (Delimited (namesIn graph machine [tree, tree']) → text = text' →
        residue graph machine tree place = residue graph machine tree' place')

theorem readByResidue (formed : graph.WellFormed) (machine : Target) {overlay : Overlay graph}
    (sound : overlay.Sound) (modest : overlay.Modest) : ReadByResidue machine overlay := by
  intro id id' tree tree' place place' text text' unfolds unfolds' spelled spelled'
  refine ⟨spelling_congr formed sound modest unfolds unfolds' spelled spelled', ?_⟩
  rintro delimited rfl
  exact residue_eq formed sound modest unfolds unfolds' spelled spelled' delimited

end

/-- Names without specializations tell where they end. -/
theorem delimited_of_plain {graph : Graph} (formed : graph.WellFormed)
    (plain : graph.SpecializationFree) (legible : graph.IdentsReadable) (machine : Target)
    {trees : List TypeTree}
    (held : ∀ tree ∈ trees, ∀ symbol ∈ tree.symbols, graph.Holds (.symbol symbol)) :
    Delimited (namesIn graph machine trees) := by
  have mentioned {name : List Char} (named : namesIn graph machine trees name) :
      ∃ id, Mentioned graph (Table.bounded 0) id .name name := by
    obtain ⟨tree, listed, id, inside, spelled⟩ := named
    rw [symbolSpelling_eq formed formed.order (held tree listed id inside)] at spelled
    cases whole : (Plan.mention graph (Plan.settled formed.order machine) id).full with
    | error refusal =>
        rw [whole] at spelled
        cases spelled
    | ok tokens =>
        rw [whole] at spelled
        cases spelled
        have ran : ((Plan.settled formed.order machine).mention graph id).run (Table.bounded 0) =
            .ok (tokens, Table.bounded 0) := by
          rw [Script.run_of_full_table, whole]
          rfl
        obtain ⟨sign, mentioned⟩ :=
          mention_run plain legible formed (held tree listed id inside) ran
        generalize Token.write tokens = chars at mentioned
        cases mentioned with
        | known stored => cases stored
        | single readable path => exact ⟨id, .single readable path⟩
        | nested chain each => exact ⟨id, .nested chain each⟩
  constructor
  · intro name named
    obtain ⟨id, name⟩ := mentioned named
    exact name.opens
  · intro name rest named longer _
    obtain ⟨id, first⟩ := mentioned named
    obtain ⟨other, second⟩ := mentioned longer
    have same : name ++ rest = (name ++ rest) ++ [] := (List.append_nil _).symm
    exact (first.append_inj second rfl same).2

end LinkName.Itanium
