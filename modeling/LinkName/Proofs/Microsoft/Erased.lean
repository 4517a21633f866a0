import LinkName.Proofs.Microsoft.Dimensions
import LinkName.Proofs.Microsoft.Settled

/-!
Types as far as their texts tell when every look-up misses: the mark in front, which depends on
where a type stands, the code or the letter of what the type is, and what is left of its parts.
Marks, codes and letters can be told from what follows them, so what is left of a type is read back
from its text where names can be.
-/
namespace LinkName.Microsoft

/-! ## Marks -/

/-- What stands before a type. -/
inductive Mark where
  | none
  /-- The `const` that the legacy dialect spells where a type is outermost. -/
  | outer
  | mutable
  | const
  /-- A record or an enumeration that is returned. -/
  | result (isConst : Bool)
  deriving DecidableEq

def Mark.chars : Mark → List Char
  | .none => []
  | .outer => ['_', 'O']
  | .mutable => ['A']
  | .const => ['B']
  | .result isConst => '?' :: 'A' :: if isConst then ['_', 'O'] else []

/-- Where a type stands, as far as its marks depend on it. -/
inductive Context where
  | parameter
  | result
  /-- Below a pointer, a reference or an array. -/
  | below
  /-- In an array that is below, with no marks from there on. -/
  | element
  deriving DecidableEq

namespace Context

def inner : Context → Context
  | .parameter | .result | .below => .below
  | .element => .element

variable (machine : Target) (isConst : Bool)

/-- The mark of what is no pointer. -/
def mark : Context → Mark
  | .parameter | .result => if isConst && machine.isLegacy then .outer else .none
  | .below => if isConst then .const else .mutable
  | .element => .none

/-- The mark of a record or an enumeration. -/
def namedMark (context : Context) : Mark :=
  match context with
  | .result => .result (isConst && machine.isLegacy)
  | _ => context.mark machine isConst

def pointerMark : Context → Mark
  | .below => if isConst then .const else .mutable
  | _ => .none

/-- The marks that can stand there. -/
def marks : Context → List Mark
  | .parameter => [.none, .outer]
  | .result => [.none, .outer, .result false, .result true]
  | .below => [.mutable, .const]
  | .element => [.none]

theorem mark_mem (context : Context) : context.mark machine isConst ∈ context.marks := by
  unfold mark
  generalize machine.isLegacy = isLegacy
  cases context <;> cases isConst <;> cases isLegacy <;> decide

theorem namedMark_mem (context : Context) : context.namedMark machine isConst ∈ context.marks := by
  cases context with
  | result =>
      show Mark.result (isConst && machine.isLegacy) ∈ result.marks
      cases isConst && machine.isLegacy <;> decide
  | _ => exact mark_mem machine isConst _

theorem pointerMark_mem (context : Context) : context.pointerMark isConst ∈ context.marks := by
  cases context <;> cases isConst <;> decide

/-- The text is not taken for a mark. -/
def Clears (chars : List Char) : Context → Prop
  | .parameter => ∀ rest, chars ≠ '_' :: 'O' :: rest
  | .result => ∀ rest, chars ≠ '_' :: 'O' :: rest ∧ chars ≠ '?' :: rest
  | .below => ∀ rest, chars ≠ 'A' :: rest ∧ chars ≠ 'B' :: rest
  | .element => True

end Context

/-! ## What the first characters say -/

/-- The kinds of types that their first character, apart from a mark, tells apart. -/
inductive Sign where
  | leaf
  | pointer
  | reference
  | array
  | function

namespace Sign

/-- The kind of type that starts with a character. No type starts with `@` or `Z`, which end a list,
nor with the mark of a result. -/
def of? (char : Char) : Option Sign :=
  match char with
  | 'P' | 'Q' => some .pointer
  | 'A' => some .reference
  | 'Y' => some .array
  | '6' => some .function
  | '@' | 'B' | 'Z' | '?' => none
  | _ => some .leaf

/-- The text starts with a character of the kind, and not with the `const` of the legacy dialect. -/
def Opens (sign : Sign) (chars : List Char) : Prop :=
  ∃ first rest, chars = first :: rest ∧ of? first = some sign ∧
    (first = '_' → ∃ second ∈ rest.head?, second ≠ 'O')

variable {sign sign' : Sign} {chars chars' rest rest' : List Char}

theorem Opens.append (opens : sign.Opens chars) (rest : List Char) :
    sign.Opens (chars ++ rest) := by
  obtain ⟨first, others, rfl, known, apart⟩ := opens
  refine ⟨first, others ++ rest, rfl, known, fun lead => ?_⟩
  obtain ⟨second, follows, other⟩ := apart lead
  refine ⟨second, ?_, other⟩
  rw [List.head?_append, Option.mem_def.mp follows]
  exact rfl

theorem Opens.sign_eq (opens : sign.Opens chars) (opens' : sign'.Opens chars) : sign = sign' := by
  obtain ⟨first, others, rfl, known, -⟩ := opens
  obtain ⟨first', others', same, known', -⟩ := opens'
  obtain ⟨rfl, -⟩ := List.cons.inj same
  exact Option.some.inj (known.symm.trans known')

theorem Opens.clears (opens : sign.Opens chars) {context : Context}
    (direct : sign = .reference → context ≠ .below) : context.Clears chars := by
  obtain ⟨first, others, rfl, known, apart⟩ := opens
  have plain (rest : List Char) : first :: others ≠ '_' :: 'O' :: rest := by
    intro same
    obtain ⟨rfl, rfl⟩ := List.cons.inj same
    obtain ⟨second, follows, other⟩ := apart rfl
    exact other (Option.some.inj follows).symm
  have other {char : Char} (unknown : of? char = none) (rest : List Char) :
      first :: others ≠ char :: rest := by
    rintro ⟨rfl, -⟩
    cases known.symm.trans unknown
  cases context with
  | parameter => exact plain
  | result => exact fun rest => ⟨plain rest, other rfl rest⟩
  | below =>
      refine fun rest => ⟨?_, other rfl rest⟩
      rintro ⟨rfl, -⟩
      exact direct (Option.some.inj known).symm rfl
  | element => trivial

end Sign

/-- Marks can be told from what comes after them. -/
theorem Context.mark_append_inj {context : Context} {mark mark' : Mark} {chars chars' : List Char}
    (known : mark = .none ∨ mark ∈ context.marks) (known' : mark' = .none ∨ mark' ∈ context.marks)
    (clears : context.Clears chars) (clears' : context.Clears chars')
    (same : mark.chars ++ chars = mark'.chars ++ chars') : mark = mark' ∧ chars = chars' := by
  rcases mark with _ | _ | _ | _ | (_ | _) <;> rcases mark' with _ | _ | _ | _ | (_ | _) <;>
    cases context <;> first
      | exact absurd known (by decide)
      | exact absurd known' (by decide)
      | grind [Mark.chars, Clears]

/-! ## Codes -/

def basicCodes : List String :=
  ["X", "C", "E", "F", "G", "H", "I", "M", "N", "D", "_J", "_K", "_N", "_Z", "_T", "_Y", "_W"]

/-- The codes that a name follows. -/
def nameCodes : List String :=
  ["T", "U", "V", "W0", "W1", "W2", "W3", "W4", "W5", "W6", "W7"]

theorem builtin?_mem {machine : Target} {basic : BasicType} {code : String}
    (known : builtin? machine basic = some code) : code ∈ basicCodes := by
  cases basic <;> simp only [builtin?] at known <;> (try split at known) <;> cases known <;> decide

theorem enumBase?_mem {base : BasicType} {code : String} (known : enumBase? base = some code) :
    code ∈ nameCodes := by
  cases base <;> cases known <;> decide

theorem recordLetter_mem (symbol : Symbol) : recordLetter symbol ∈ nameCodes := by
  unfold recordLetter
  split <;> decide

theorem opens_code {code : String} (known : code ∈ basicCodes ∨ code ∈ nameCodes) :
    Sign.leaf.Opens code.toList := by
  simp only [basicCodes, nameCodes, List.mem_cons, List.not_mem_nil, or_false] at known
  rcases known with (rfl | rfl | rfl | rfl | rfl | rfl | rfl | rfl | rfl | rfl | rfl | rfl | rfl |
    rfl | rfl | rfl | rfl) | rfl | rfl | rfl | rfl | rfl | rfl | rfl | rfl | rfl | rfl | rfl <;>
    first
    | exact ⟨_, _, rfl, rfl, fun _ => ⟨_, rfl, by decide⟩⟩
    | exact ⟨_, _, rfl, rfl, fun lead => absurd lead (by decide)⟩

/-- The first character tells how long a code is. -/
def codeLength (first : Char) : Nat := if first = '_' ∨ first = 'W' then 2 else 1

theorem length_code {code : String} (known : code ∈ basicCodes ∨ code ∈ nameCodes) :
    code.toList.head?.map codeLength = some code.toList.length := by
  have each : ∀ code ∈ basicCodes ++ nameCodes,
      code.toList.head?.map codeLength = some code.toList.length := by
    decide
  exact each code (List.mem_append.mpr known)

theorem code_append_inj {code code' : String} {rest rest' : List Char}
    (known : code ∈ basicCodes ∨ code ∈ nameCodes) (known' : code' ∈ basicCodes ∨ code' ∈ nameCodes)
    (same : code.toList ++ rest = code'.toList ++ rest') : code = code' ∧ rest = rest' := by
  have starts {code : String} (known : code ∈ basicCodes ∨ code ∈ nameCodes) (rest : List Char) :
      code.toList.head? = (code.toList ++ rest).head? := by
    obtain ⟨first, others, written, -⟩ := opens_code known
    rw [written]
    rfl
  have heads : code.toList.head? = code'.toList.head? := by
    rw [starts known rest, starts known' rest', same]
  have lengths : code.toList.length = code'.toList.length :=
    Option.some.inj ((length_code known).symm.trans (heads ▸ length_code known'))
  obtain ⟨codes, left⟩ := List.append_inj same lengths
  exact ⟨String.toList_inj.mp codes, left⟩

/-! ## What is left of a type -/

/-- A type as far as its text tells. -/
inductive Erased where
  /-- A builtin type, or a code and the name that follows it. -/
  | leaf (mark : Mark) (code : String) (name : List Char)
  /-- A pointer, whose width is spelled, or an array that is written as one. -/
  | pointer (mark : Mark) (isConst isWide : Bool) (target : Erased)
  | reference (target : Erased)
  | array (mark : Mark) (dims : List Nat) (element : Erased)
  | function (convention : String) (result : Erased) (params : List Erased) (isVariadic : Bool)

/-- Names that tell where they end: none is the beginning of another one. -/
def Delimited (names : List Char → Prop) : Prop :=
  ∀ name rest, names name → names (name ++ rest) → rest = []

/-- The name under which vectors are written. -/
def vectorName : List Char := "__m128@@".toList

namespace Erased

def mark : Erased → Mark
  | .leaf mark _ _ | .pointer mark _ _ _ | .array mark _ _ => mark
  | .reference _ | .function _ _ _ _ => .none

def sign : Erased → Sign
  | .leaf _ _ _ => .leaf
  | .pointer _ _ _ _ => .pointer
  | .reference _ => .reference
  | .array _ _ _ => .array
  | .function _ _ _ _ => .function

/-- The code of a builtin type or in front of a name. -/
def code : Erased → String
  | .leaf _ code _ => code
  | .pointer _ _ _ _ | .reference _ | .array _ _ _ | .function _ _ _ _ => ""

def wideChars (isWide : Bool) : List Char := if isWide then ['E'] else []

/-- How many numbers there are, and then each. -/
def dimensionChars (dims : List Nat) : List Char :=
  numberChars dims.length ++ dims.flatMap numberChars

/-- What ends a list of parameters. -/
def ending (isVariadic isEmpty : Bool) : List Char :=
  [if isVariadic then 'Z' else if isEmpty then 'X' else '@', 'Z']

mutual

/-- What is written behind the mark. -/
def body (machine : Target) : Erased → List Char
  | .leaf _ code name => code.toList ++ name
  | .pointer _ isConst isWide target =>
    (if isConst then 'Q' else 'P') ::
      (wideChars isWide ++ (target.mark.chars ++ body machine target))
  | .reference target =>
    'A' :: (wideChars machine.is64Bit ++ (target.mark.chars ++ body machine target))
  | .array _ dims element =>
    'Y' :: (dimensionChars dims ++ (element.mark.chars ++ body machine element))
  | .function convention result params isVariadic =>
    '6' :: (convention.toList ++ (result.mark.chars ++ body machine result ++
      (bodies machine params ++ ending isVariadic params.isEmpty)))

def bodies (machine : Target) : List Erased → List Char
  | [] => []
  | first :: rest => first.mark.chars ++ body machine first ++ bodies machine rest

end

def chars (machine : Target) (erased : Erased) : List Char :=
  erased.mark.chars ++ erased.body machine

variable (machine : Target)

theorem bodies_eq (params : List Erased) :
    bodies machine params = params.flatMap (chars machine) := by
  induction params with
  | nil => rfl
  | cons first rest ih => rw [bodies, ih, List.flatMap_cons, chars]

theorem body_pointer (mark : Mark) (isConst isWide : Bool) (target : Erased) :
    (pointer mark isConst isWide target).body machine =
      (if isConst then 'Q' else 'P') :: (wideChars isWide ++ target.chars machine) := rfl

theorem body_reference (target : Erased) : (reference target).body machine =
    'A' :: (wideChars machine.is64Bit ++ target.chars machine) := rfl

theorem body_array (mark : Mark) (dims : List Nat) (element : Erased) :
    (array mark dims element).body machine =
      'Y' :: (dimensionChars dims ++ element.chars machine) := rfl

theorem body_function (convention : String) (result : Erased) (params : List Erased)
    (isVariadic : Bool) : (function convention result params isVariadic).body machine =
      '6' :: (convention.toList ++ (result.chars machine ++
        (params.flatMap (chars machine) ++ ending isVariadic params.isEmpty))) := by
  simp only [body, bodies_eq, chars]

/-- What a type needs in order to be read back: names that do not begin one another, no reference
inside another type, and no parameter that is taken for the end of a list. -/
inductive Formed (machine : Target) (names : List Char → Prop) : Context → Erased → Prop
  | leaf {context : Context} {mark : Mark} {code : String} {name : List Char}
      (marked : mark = .none ∧ code = "T" ∨ mark ∈ context.marks)
      (coded : code ∈ basicCodes ∧ name = [] ∨ code ∈ nameCodes ∧ names name) :
      Formed machine names context (.leaf mark code name)
  | pointer {context : Context} {mark : Mark} {isWide : Bool} {target : Erased}
      (marked : mark = .none ∨ mark ∈ context.marks) (isConst : Bool)
      (wide : isWide = machine.is64Bit ∨ isWide = false ∧ 'E' ∉ (target.chars machine).head?)
      (formed : Formed machine names context.inner target) :
      Formed machine names context (.pointer mark isConst isWide target)
  | reference {context : Context} {target : Erased} (direct : context ≠ .below)
      (formed : Formed machine names context.inner target) :
      Formed machine names context (.reference target)
  | array {context : Context} {mark : Mark} {element : Erased} (marked : mark ∈ context.marks)
      (dims : List Nat) (formed : Formed machine names .element element) :
      Formed machine names context (.array mark dims element)
  | function {context : Context} {convention : String} {result : Erased} {params : List Erased}
      {isVariadic : Bool} (known : convention.toList.length = 1)
      (formed : Formed machine names .result result)
      (each : ∀ param ∈ params, Formed machine names .parameter param)
      (values : ∀ param ∈ params, 'X' ∉ (param.chars machine).head?) :
      Formed machine names context (.function convention result params isVariadic)

variable {names : List Char → Prop} {machine : Target} {context : Context}
variable {erased other : Erased} {rest rest' : List Char}

theorem Formed.opens (formed : erased.Formed machine names context) :
    erased.sign.Opens (erased.body machine) := by
  cases formed with
  | leaf marked coded => exact (opens_code (coded.imp And.left And.left)).append _
  | pointer marked isConst wide formed =>
      cases isConst <;> exact ⟨_, _, rfl, rfl, fun lead => absurd lead (by decide)⟩
  | reference | array | function => exact ⟨_, _, rfl, rfl, fun lead => absurd lead (by decide)⟩

theorem Formed.mark_mem (formed : erased.Formed machine names context) :
    erased.mark = .none ∨ erased.mark ∈ context.marks := by
  cases formed with
  | leaf marked coded => exact marked.imp And.left id
  | pointer marked isConst wide formed => exact marked
  | reference | function => exact .inl rfl
  | array marked => exact .inr marked

theorem Formed.clears (formed : erased.Formed machine names context) (rest : List Char) :
    context.Clears (erased.body machine ++ rest) := by
  refine (formed.opens.append rest).clears ?_
  cases formed with
  | reference direct => exact fun _ => direct
  | leaf | pointer | array | function => nofun

theorem chars_append_eq (formed : erased.Formed machine names context)
    (formed' : other.Formed machine names context)
    (same : erased.chars machine ++ rest = other.chars machine ++ rest') :
    erased.mark = other.mark ∧ erased.sign = other.sign ∧
      erased.body machine ++ rest = other.body machine ++ rest' := by
  rw [chars, chars, List.append_assoc, List.append_assoc] at same
  obtain ⟨marks, onward⟩ := Context.mark_append_inj formed.mark_mem formed'.mark_mem
    (formed.clears rest) (formed'.clears rest') same
  exact ⟨marks, (formed.opens.append rest).sign_eq (onward ▸ formed'.opens.append rest'), onward⟩

/-- Below another type, but not in an array, no type starts with the letter of a width. -/
theorem Formed.ne_wide (formed : erased.Formed machine names .below) :
    'E' ∉ (erased.chars machine).head? := by
  have marks {mark : Mark} (marked : mark ∈ Context.below.marks) (chars : List Char) :
      'E' ∉ (mark.chars ++ chars).head? := by
    simp only [Context.marks, List.mem_cons, List.not_mem_nil, or_false] at marked
    rcases marked with rfl | rfl <;> exact fun starts => by cases starts
  cases formed with
  | leaf marked coded =>
      rcases marked with ⟨rfl, rfl⟩ | marked
      · exact fun starts => by cases starts
      · exact marks marked _
  | @pointer _ mark isWide target marked isConst wide formed =>
      rcases marked with rfl | marked
      · cases isConst <;> exact fun starts => by cases starts
      · exact marks marked _
  | reference direct => exact absurd rfl direct
  | array marked => exact marks marked _
  | function => exact fun starts => by cases starts

/-- No parameter is taken for the end of a list. -/
theorem Formed.ne_ending (formed : erased.Formed machine names .parameter)
    (value : 'X' ∉ (erased.chars machine).head?) (isVariadic isEmpty : Bool) :
    erased.chars machine ++ rest ≠ ending isVariadic isEmpty ++ rest' := by
  intro same
  obtain ⟨first, others, written, known⟩ : ∃ first others, erased.chars machine = first :: others ∧
      Sign.of? first ≠ none := by
    obtain ⟨first, others, written, known, -⟩ := formed.opens
    unfold chars
    rw [written]
    rcases formed.mark_mem with unmarked | marked
    · rw [unmarked]
      exact ⟨first, others, rfl, by simp [known]⟩
    · simp only [Context.marks, List.mem_cons, List.not_mem_nil, or_false] at marked
      rcases marked with marked | marked <;> rw [marked]
      · exact ⟨first, others, rfl, by simp [known]⟩
      · exact ⟨'_', _, rfl, by decide⟩
  rw [written] at same value
  obtain ⟨rfl, -⟩ := List.cons.inj same
  cases isVariadic <;> cases isEmpty <;> first | exact value rfl | exact known rfl

/-- What can be a parameter can be a result. -/
theorem Formed.result (formed : erased.Formed machine names .parameter) :
    erased.Formed machine names .result := by
  have marks {mark : Mark} (marked : mark ∈ Context.parameter.marks) :
      mark ∈ Context.result.marks :=
    List.mem_append_left [Mark.result false, Mark.result true] marked
  cases formed with
  | leaf marked coded => exact .leaf (marked.imp_right marks) coded
  | pointer marked isConst wide formed =>
      exact .pointer (marked.imp_right marks) isConst wide formed
  | reference direct formed => exact .reference nofun formed
  | array marked dims formed => exact .array (marks marked) dims formed
  | function known formed each values => exact .function known formed each values

/-- A parameter whose text starts as that of `void` has the code of `void`. -/
theorem Formed.code_eq (formed : erased.Formed machine names .parameter)
    (starts : 'X' ∈ (erased.chars machine).head?) : erased.code = "X" := by
  have marks {mark : Mark} (marked : mark ∈ Context.parameter.marks) {chars : List Char}
      (starts : 'X' ∈ (mark.chars ++ chars).head?) : mark = .none := by
    simp only [Context.marks, List.mem_cons, List.not_mem_nil, or_false] at marked
    rcases marked with rfl | rfl
    · rfl
    · cases starts
  cases formed with
  | @leaf _ mark code name marked coded =>
      obtain rfl : mark = .none := marked.elim And.left fun marked => marks marked starts
      have known := coded.imp And.left And.left
      obtain ⟨first, others, written, -⟩ := opens_code known
      have head : code.toList.head? = some 'X' := by
        change 'X' ∈ (code.toList ++ name).head? at starts
        rw [written] at starts ⊢
        exact starts
      have sole : ∀ code ∈ basicCodes ++ nameCodes, code.toList.head? = some 'X' → code = "X" := by
        decide
      exact sole code (List.mem_append.mpr known) head
  | @pointer _ mark _ _ marked isConst =>
      obtain rfl : mark = .none := marked.elim id fun marked => marks marked starts
      cases isConst <;> cases starts
  | reference | function => cases starts
  | @array _ mark _ marked =>
      obtain rfl : mark = .none := marks marked starts
      cases starts

/-- Where texts go on alike with the type and with another one, the two are one. -/
def Legible (machine : Target) (names : List Char → Prop) (context : Context) (erased : Erased) :
    Prop :=
  ∀ other rest rest', other.Formed machine names context →
    erased.chars machine ++ rest = other.chars machine ++ rest' → erased = other ∧ rest = rest'

theorem wideChars_append_inj {isWide isWide' : Bool} {target target' : Erased}
    (wide : isWide = machine.is64Bit ∨ isWide = false ∧ 'E' ∉ (target.chars machine).head?)
    (wide' : isWide' = machine.is64Bit ∨ isWide' = false ∧ 'E' ∉ (target'.chars machine).head?)
    (formed : target.Formed machine names context) (formed' : target'.Formed machine names context)
    (same : wideChars isWide ++ (target.chars machine ++ rest) =
      wideChars isWide' ++ (target'.chars machine ++ rest')) :
    isWide = isWide' ∧ target.chars machine ++ rest = target'.chars machine ++ rest' := by
  have apart {target : Erased} {rest further : List Char}
      (formed : target.Formed machine names context)
      (narrow : 'E' ∉ (target.chars machine).head?) :
      target.chars machine ++ rest ≠ 'E' :: further := by
    obtain ⟨first, others, written, -⟩ := formed.opens
    cases whole : target.chars machine with
    | nil =>
        rw [chars, written] at whole
        exact absurd whole (List.append_ne_nil_of_right_ne_nil _ (List.cons_ne_nil _ _))
    | cons head tail =>
        rw [whole] at narrow
        exact fun starts => narrow (congrArg some (List.cons.inj starts).1)
  cases isWide <;> cases isWide'
  · exact ⟨rfl, same⟩
  · have wider := wide'.resolve_right fun narrow => nomatch narrow.1
    have narrow := wide.resolve_left fun here => nomatch here.trans wider.symm
    exact absurd same (apart formed narrow.2)
  · have wider := wide.resolve_right fun narrow => nomatch narrow.1
    have narrow := wide'.resolve_left fun here => nomatch here.trans wider.symm
    exact absurd same.symm (apart formed' narrow.2)
  · exact ⟨rfl, (List.cons.inj same).2⟩

theorem dimensionChars_append_inj {dims dims' : List Nat}
    (same : dimensionChars dims ++ rest = dimensionChars dims' ++ rest') :
    dims = dims' ∧ rest = rest' := by
  have read (dims : List Nat) (rest : List Char) :
      readDimensions (dimensionChars dims ++ rest) = some (dims, rest) := by
    simp [readDimensions, dimensionChars, List.append_assoc, readNumber_append, readNumbers_append]
  exact Prod.mk.inj (Option.some.inj ((read dims rest).symm.trans (same ▸ read dims' rest')))

theorem flatMap_append_inj {params params' : List Erased}
    (legible : ∀ param ∈ params, param.Legible machine names .parameter)
    (each : ∀ param ∈ params, param.Formed machine names .parameter)
    (each' : ∀ param ∈ params', param.Formed machine names .parameter)
    (values : ∀ param ∈ params, 'X' ∉ (param.chars machine).head?)
    (values' : ∀ param ∈ params', 'X' ∉ (param.chars machine).head?)
    {isVariadic isVariadic' isEmpty isEmpty' : Bool}
    (same : params.flatMap (chars machine) ++ (ending isVariadic isEmpty ++ rest) =
      params'.flatMap (chars machine) ++ (ending isVariadic' isEmpty' ++ rest')) :
    params = params' ∧
      ending isVariadic isEmpty ++ rest = ending isVariadic' isEmpty' ++ rest' := by
  induction params generalizing params' with
  | nil =>
      cases params' with
      | nil => exact ⟨rfl, same⟩
      | cons first others =>
          rw [List.flatMap_cons, List.append_assoc] at same
          exact absurd same.symm ((each' first List.mem_cons_self).ne_ending
            (values' first List.mem_cons_self) _ _)
  | cons first others ih =>
      rw [List.flatMap_cons, List.append_assoc] at same
      cases params' with
      | nil =>
          exact absurd same ((each first List.mem_cons_self).ne_ending
            (values first List.mem_cons_self) _ _)
      | cons first' others' =>
          rw [List.flatMap_cons, List.append_assoc] at same
          obtain ⟨rfl, onward⟩ :=
            legible first List.mem_cons_self first' _ _ (each' first' List.mem_cons_self) same
          obtain ⟨rfl, left⟩ := ih (List.forall_mem_cons.mp legible).2
            (List.forall_mem_cons.mp each).2 (List.forall_mem_cons.mp each').2
            (List.forall_mem_cons.mp values).2 (List.forall_mem_cons.mp values').2 onward
          exact ⟨rfl, left⟩

theorem ending_append_inj {isVariadic isVariadic' isEmpty : Bool}
    (same : ending isVariadic isEmpty ++ rest = ending isVariadic' isEmpty ++ rest') :
    isVariadic = isVariadic' ∧ rest = rest' := by
  cases isVariadic <;> cases isVariadic' <;> cases isEmpty <;>
    simp_all [ending]

theorem leaf_append_inj (delimited : Delimited names)
    {code code' : String} {name name' : List Char}
    (coded : code ∈ basicCodes ∧ name = [] ∨ code ∈ nameCodes ∧ names name)
    (coded' : code' ∈ basicCodes ∧ name' = [] ∨ code' ∈ nameCodes ∧ names name')
    (same : code.toList ++ (name ++ rest) = code'.toList ++ (name' ++ rest')) :
    code = code' ∧ name = name' ∧ rest = rest' := by
  have apart : ∀ code ∈ basicCodes, code ∉ nameCodes := by decide
  obtain ⟨rfl, onward⟩ :=
    code_append_inj (coded.imp And.left And.left) (coded'.imp And.left And.left) same
  rcases coded with ⟨basic, rfl⟩ | ⟨naming, known⟩ <;>
    rcases coded' with ⟨basic', rfl⟩ | ⟨naming', known'⟩
  · exact ⟨rfl, rfl, onward⟩
  · exact absurd naming' (apart code basic)
  · exact absurd naming (apart code basic')
  · refine ⟨rfl, ?_⟩
    rcases List.append_eq_append_iff.mp onward with ⟨more, rfl, rfl⟩ | ⟨more, rfl, rfl⟩
    · obtain rfl := delimited name more known known'
      exact ⟨(List.append_nil name).symm, rfl⟩
    · obtain rfl := delimited name' more known' known
      exact ⟨List.append_nil name', rfl⟩

/-- A type is read back from its text, whatever follows. -/
theorem Formed.legible (delimited : Delimited names)
    (formed : erased.Formed machine names context) : erased.Legible machine names context := by
  induction formed with
  | leaf marked coded =>
      intro other rest rest' formed' same
      obtain ⟨marks, signs, onward⟩ := chars_append_eq (.leaf marked coded) formed' same
      cases formed' with
      | leaf marked' coded' =>
          simp only [body, List.append_assoc] at onward
          obtain ⟨rfl, rfl, left⟩ := leaf_append_inj delimited coded coded' onward
          obtain rfl := marks
          exact ⟨rfl, left⟩
      | pointer | reference | array | function => cases signs
  | @pointer context mark isWide target marked isConst wide formed ih =>
      intro other rest rest' formed' same
      obtain ⟨marks, signs, onward⟩ :=
        chars_append_eq (.pointer marked isConst wide formed) formed' same
      cases formed' with
      | @pointer _ mark' isWide' target' marked' isConst' wide' formed' =>
          rw [body_pointer, body_pointer] at onward
          simp only [List.cons_append, List.append_assoc, List.cons.injEq] at onward
          obtain ⟨letters, onward⟩ := onward
          obtain rfl : isConst = isConst' := by
            cases isConst <;> cases isConst' <;> cases letters <;> rfl
          obtain ⟨rfl, below⟩ := wideChars_append_inj wide wide' formed formed' onward
          obtain ⟨rfl, left⟩ := ih _ _ _ formed' below
          obtain rfl : mark = mark' := marks
          exact ⟨rfl, left⟩
      | leaf | reference | array | function => cases signs
  | @reference context target direct formed ih =>
      intro other rest rest' formed' same
      obtain ⟨-, signs, onward⟩ := chars_append_eq (.reference direct formed) formed' same
      cases formed' with
      | reference _ formed' =>
          rw [body_reference, body_reference] at onward
          simp only [List.cons_append, List.append_assoc, List.cons.injEq, true_and,
            List.append_cancel_left_eq] at onward
          obtain ⟨rfl, left⟩ := ih _ _ _ formed' onward
          exact ⟨rfl, left⟩
      | leaf | pointer | array | function => cases signs
  | @array context mark element marked dims formed ih =>
      intro other rest rest' formed' same
      obtain ⟨marks, signs, onward⟩ := chars_append_eq (.array marked dims formed) formed' same
      cases formed' with
      | @array _ mark' element' marked' dims' formed' =>
          rw [body_array, body_array] at onward
          simp only [List.cons_append, List.append_assoc, List.cons.injEq, true_and] at onward
          obtain ⟨rfl, below⟩ := dimensionChars_append_inj onward
          obtain ⟨rfl, left⟩ := ih _ _ _ formed' below
          obtain rfl : mark = mark' := marks
          exact ⟨rfl, left⟩
      | leaf | pointer | reference | function => cases signs
  | @function context convention result params isVariadic known formed each values ih ihs =>
      intro other rest rest' formed' same
      obtain ⟨-, signs, onward⟩ := chars_append_eq (.function known formed each values) formed' same
      cases formed' with
      | @function _ convention' result' params' isVariadic' known' formed' each' values' =>
          rw [body_function, body_function] at onward
          simp only [List.cons_append, List.append_assoc, List.cons.injEq, true_and] at onward
          obtain ⟨conventions, behind⟩ := List.append_inj onward (known.trans known'.symm)
          obtain rfl := String.toList_inj.mp conventions
          obtain ⟨rfl, further⟩ := ih _ _ _ formed' behind
          obtain ⟨rfl, ended⟩ := flatMap_append_inj ihs each each' values values' further
          obtain ⟨rfl, left⟩ := ending_append_inj ended
          exact ⟨rfl, left⟩
      | leaf | pointer | reference | array => cases signs

end Erased

end LinkName.Microsoft
