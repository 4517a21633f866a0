import LinkName.Itanium.Token
import LinkName.Proofs.Numeral

/-!
Tokens as they are read back. The name of a slot ends with its underscore, and a source name with the
byte that its length counts to, so neither depends on what comes after it.
-/
namespace LinkName.Itanium

theorem slotChars_append_inj {slot other : Nat} {rest rest' : List Char}
    (same : slotChars slot ++ rest = slotChars other ++ rest') : slot = other ∧ rest = rest' := by
  have zero {sequence : Nat} {left right : List Char} :
      '_' :: left ≠ Numeral.base36 sequence ++ '_' :: right := by
    intro clash
    cases digits : Numeral.base36 sequence with
    | nil => exact Numeral.digits_ne_nil 36 sequence (List.map_eq_nil_iff.mp digits)
    | cons first others =>
        rw [digits] at clash
        have listed : first ∈ Numeral.base36 sequence := digits ▸ List.mem_cons_self
        exact Numeral.ne_underscore_of_mem_base36 listed (List.cons.inj clash).1.symm
  simp only [slotChars, List.cons_append, List.append_assoc, List.nil_append, List.cons.injEq,
    true_and] at same
  cases slot with
  | zero =>
      cases other with
      | zero => exact ⟨rfl, (List.cons.inj same).2⟩
      | succ other => exact absurd same zero
  | succ slot =>
      cases other with
      | zero => exact absurd same.symm zero
      | succ other =>
          obtain ⟨sequences, left⟩ := Numeral.base36_append_inj same
          exact ⟨congrArg Nat.succ sequences, left⟩

/-- An identifier that can stand after its length: it is not empty and starts with no digit. -/
def Readable (ident : String) : Prop := ∃ first ∈ ident.toList.head?, first.isDigit = false

/-- Characters that start two texts alike are as many as their bytes. -/
theorem toList_append_inj {ident ident' : String} {rest rest' : List Char}
    (sizes : ident.utf8ByteSize = ident'.utf8ByteSize)
    (same : ident.toList ++ rest = ident'.toList ++ rest') : ident = ident' ∧ rest = rest' := by
  have alike {short long : String} {more : List Char}
      (sizes : short.utf8ByteSize = long.utf8ByteSize) (longer : long.toList = short.toList ++ more) :
      more = [] := by
    have whole : long = short ++ String.ofList more := by
      rw [← String.toList_inj, String.toList_append, String.toList_ofList, longer]
    rw [whole, String.utf8ByteSize_append] at sizes
    have none : (String.ofList more).utf8ByteSize = 0 := by omega
    simpa using String.utf8ByteSize_eq_zero_iff.mp none
  rcases List.append_eq_append_iff.mp same with ⟨more, longer, rfl⟩ | ⟨more, longer, rfl⟩
  · obtain rfl := alike sizes longer
    exact ⟨String.toList_inj.mp (by simpa using longer.symm), rfl⟩
  · obtain rfl := alike sizes.symm longer
    exact ⟨String.toList_inj.mp (by simpa using longer), rfl⟩

theorem sourceChars_append_inj {ident ident' : String} {rest rest' : List Char}
    (readable : Readable ident) (readable' : Readable ident')
    (same : sourceChars ident ++ rest = sourceChars ident' ++ rest') :
    ident = ident' ∧ rest = rest' := by
  have ends {ident : String} {rest : List Char} (readable : Readable ident) :
      ∀ char ∈ (ident.toList ++ rest).head?, char.isDigit = false := by
    obtain ⟨first, starts, letter⟩ := readable
    rw [List.head?_append, Option.mem_def.mp starts]
    simpa using letter
  simp only [sourceChars, List.append_assoc] at same
  obtain ⟨sizes, left⟩ := Numeral.decimal_append_inj (ends readable) (ends readable') same
  exact toList_append_inj sizes left

/-- The bytes of an identifier and the length before them tell where it starts. -/
theorem sourceChars_injective : Function.Injective sourceChars := by
  have alike {short long : String} {rest : List Char}
      (numerals : Numeral.decimal long.utf8ByteSize = Numeral.decimal short.utf8ByteSize ++ rest)
      (texts : short.toList = rest ++ long.toList) : short = long := by
    have fewer := Numeral.le_of_decimal_append numerals
    have whole : short = String.ofList rest ++ long := by
      rw [← String.toList_inj, String.toList_append, String.toList_ofList, texts]
    rw [whole, String.utf8ByteSize_append] at fewer
    have none : (String.ofList rest).utf8ByteSize = 0 := by omega
    obtain rfl : rest = [] := by simpa using String.utf8ByteSize_eq_zero_iff.mp none
    exact String.toList_inj.mp texts
  intro ident ident' same
  rcases List.append_eq_append_iff.mp same with ⟨rest, numerals, texts⟩ | ⟨rest, numerals, texts⟩
  · exact alike numerals texts
  · exact (alike numerals texts).symm

/-- A source name starts with a digit. -/
theorem sourceChars_head (ident : String) : ∃ first rest,
    sourceChars ident = first :: rest ∧ first.isDigit = true := by
  unfold sourceChars
  cases digits : Numeral.decimal ident.utf8ByteSize with
  | nil => exact absurd (List.map_eq_nil_iff.mp digits) (Numeral.digits_ne_nil 10 _)
  | cons first others =>
      exact ⟨first, others ++ ident.toList, rfl,
        Numeral.isDigit_of_mem_decimal (digits ▸ List.mem_cons_self)⟩

/-! ## What the first character says -/

/-- The kinds of types that their first character, apart from a `const`, tells apart. -/
inductive Sign where
  | slot
  | name
  | basic
  | pointer
  | reference
  | array
  | vector
  | function

namespace Sign

/-- The kind of type that starts with a character. No type starts with `E`, `Y` or `z`, which end a
list or follow the sign of a function, nor with the `I` before template arguments. -/
def of? (char : Char) : Option Sign :=
  if char.isDigit then some .name
  else
    match char with
    | 'S' => some .slot
    | 'N' => some .name
    | 'P' => some .pointer
    | 'R' => some .reference
    | 'A' => some .array
    | 'U' => some .vector
    | 'F' => some .function
    | 'K' | 'E' | 'I' | 'Y' | 'z' => none
    | _ => some .basic

/-- The text starts with a character of the kind. -/
def Opens (sign : Sign) (chars : List Char) : Prop :=
  ∃ first rest, chars = first :: rest ∧ of? first = some sign

variable {sign sign' : Sign} {chars chars' rest rest' : List Char}

theorem Opens.append (opens : Opens sign chars) (rest : List Char) : Opens sign (chars ++ rest) := by
  obtain ⟨first, others, rfl, known⟩ := opens
  exact ⟨first, others ++ rest, rfl, known⟩

theorem Opens.sign_eq (opens : Opens sign chars) (opens' : Opens sign' chars) : sign = sign' := by
  obtain ⟨first, others, rfl, known⟩ := opens
  obtain ⟨first', others', same, known'⟩ := opens'
  obtain ⟨rfl, -⟩ := List.cons.inj same
  exact Option.some.inj (known.symm.trans known')

theorem opens_sourceChars (ident : String) : Opens .name (sourceChars ident) := by
  obtain ⟨first, others, written, digit⟩ := sourceChars_head ident
  exact ⟨first, others, written, if_pos digit⟩

/-- The mark of `const` starts no type itself, so it can be told from what comes after it. -/
theorem mark_append_inj {mark mark' : Bool} (opens : Opens sign chars) (opens' : Opens sign' chars')
    (same : (if mark then ['K'] else []) ++ chars = (if mark' then ['K'] else []) ++ chars') :
    mark = mark' ∧ chars = chars' := by
  obtain ⟨first, others, rfl, known⟩ := opens
  obtain ⟨first', others', rfl, known'⟩ := opens'
  cases mark <;> cases mark'
  · exact ⟨rfl, same⟩
  · obtain ⟨rfl, -⟩ := List.cons.inj same
    cases known
  · obtain ⟨rfl, -⟩ := List.cons.inj same
    cases known'
  · exact ⟨rfl, (List.cons.inj same).2⟩

end Sign

/-- The text is empty or starts with a letter that starts no type. -/
def Ends (rest : List Char) : Prop := ∀ letter ∈ rest.head?, letter ∈ ['E', 'Y', 'z']

/-- What starts as a type, with or without the mark of `const`, is not such a text. -/
theorem Sign.Opens.ne_end {sign : Sign} {chars rest : List Char} (opens : sign.Opens chars)
    (ends : Ends rest) (mark : Bool) : (if mark then ['K'] else []) ++ chars ≠ rest := by
  rintro rfl
  obtain ⟨first, others, rfl, known⟩ := opens
  cases mark with
  | false =>
      have letter := ends first rfl
      simp only [List.mem_cons, List.not_mem_nil, or_false] at letter
      rcases letter with rfl | rfl | rfl <;> cases known
  | true => exact absurd (ends 'K' rfl) (by decide)

end LinkName.Itanium
