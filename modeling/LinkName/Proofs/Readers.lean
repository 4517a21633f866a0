import LinkName.Itanium.Declaration
import LinkName.Microsoft.Declaration
import LinkName.Proofs.Numeral

/-!
Readers for the numbers in names. A reader gives the number that a text starts with and the rest of
the text, so that a number is read back whatever follows it, and nothing of it is left over.
-/
namespace LinkName

/-- If things are read back whatever follows them, what is written for one is not the start of what is
written for another. -/
theorem eq_of_prefix_of_read {α : Type} {read : List Char → Option (α × List Char)}
    {write : α → List Char} (reads : ∀ item rest, read (write item ++ rest) = some (item, rest))
    {item other : α} (starts : write item <+: write other) : item = other := by
  obtain ⟨rest, same⟩ := starts
  have told := reads item rest
  rw [same, ← List.append_nil (write other), reads] at told
  exact (Prod.ext_iff.mp (Option.some.inj told)).1.symm

namespace Numeral

/-- The number that a text starts with, whose digits are the characters of one kind, and the rest of
the text. -/
def read (base : Nat) (kind : Char → Bool) (place : Char → Nat) (text : List Char) :
    Option (Nat × List Char) :=
  match text.takeWhile kind with
  | [] => none
  | digits => some (value base (digits.map place), text.dropWhile kind)

theorem map_map_eq_self {α β : Type} {there : α → β} {back : β → α} {items : List α}
    (same : ∀ item ∈ items, back (there item) = item) : (items.map there).map back = items := by
  rw [List.map_map]
  exact (List.map_congr_left same).trans (List.map_id' items)

theorem read_append {base : Nat} {kind : Char → Bool} {place : Char → Nat} {toChar : Nat → Char}
    (large : 2 ≤ base) (reads : ∀ digit < base, kind (toChar digit) = true ∧
      place (toChar digit) = digit) {rest : List Char}
    (ends : ∀ char ∈ rest.head?, kind char = false) (number : Nat) :
    read base kind place ((digits base number).map toChar ++ rest) = some (number, rest) := by
  have small := digits_lt (by omega : 0 < base) number
  have inside : ∀ char ∈ (digits base number).map toChar, kind char = true := by
    intro char listed
    obtain ⟨digit, known, rfl⟩ := List.mem_map.mp listed
    exact (reads digit (small digit known)).1
  have stops : rest.takeWhile kind = [] ∧ rest.dropWhile kind = rest := by
    cases rest with
    | nil => exact ⟨rfl, rfl⟩
    | cons char others => simp [ends char rfl]
  have places : ((digits base number).map toChar).map place = digits base number :=
    map_map_eq_self fun digit known => (reads digit (small digit known)).2
  unfold read
  rw [List.takeWhile_append_of_pos inside, List.dropWhile_append_of_pos inside, stops.1, stops.2,
    List.append_nil]
  split
  · next none => exact absurd (List.map_eq_nil_iff.mp none) (digits_ne_nil base number)
  · rw [places, value_digits large]

def readDecimal : List Char → Option (Nat × List Char) :=
  read 10 Char.isDigit (·.toNat - '0'.toNat)

theorem readDecimal_append {rest : List Char} (ends : ∀ char ∈ rest.head?, char.isDigit = false)
    (number : Nat) : readDecimal (decimal number ++ rest) = some (number, rest) :=
  read_append (by decide) (by decide) ends number

/-- Whether the character is one of `A` to `P`, the digits of a hexadecimal numeral. -/
def isHexLetter (char : Char) : Bool := 'A' ≤ char && char ≤ 'P'

def readHexLetters : List Char → Option (Nat × List Char) :=
  read 16 isHexLetter (·.toNat - 'A'.toNat)

theorem readHexLetters_append {rest : List Char}
    (ends : ∀ char ∈ rest.head?, isHexLetter char = false) (number : Nat) :
    readHexLetters (hexLetters number ++ rest) = some (number, rest) :=
  read_append (by decide) (by decide) ends number

/-- Whether the character is a digit or a capital letter, the digits of a numeral in base 36. -/
def isBase36Digit (char : Char) : Bool := char.isDigit || ('A' ≤ char && char ≤ 'Z')

def base36Place (char : Char) : Nat :=
  if char.isDigit then char.toNat - '0'.toNat else char.toNat - 'A'.toNat + 10

theorem base36_reads :
    ∀ digit < 36, isBase36Digit (digitChar digit) = true ∧ base36Place (digitChar digit) = digit := by
  decide

def readBase36 : List Char → Option (Nat × List Char) := read 36 isBase36Digit base36Place

theorem readBase36_append {rest : List Char}
    (ends : ∀ char ∈ rest.head?, isBase36Digit char = false) (number : Nat) :
    readBase36 (base36 number ++ rest) = some (number, rest) :=
  read_append (by decide) base36_reads ends number

/-- A numeral starts with one of its digits. -/
theorem head?_append_ne {base : Nat} {toChar : Nat → Char} {mark : Char} (positive : 0 < base)
    (other : ∀ digit < base, toChar digit ≠ mark) (number : Nat) (rest : List Char) :
    ((digits base number).map toChar ++ rest).head? ≠ some mark := by
  obtain ⟨first, others, places⟩ := List.exists_cons_of_ne_nil (digits_ne_nil base number)
  have small : first < base := digits_lt positive number first (places ▸ List.mem_cons_self)
  simpa [places] using other first small

/-- Whether a text starts with the mark of a negative number, and what follows it. -/
def readSign (mark : Char) (text : List Char) : Bool × List Char :=
  if text.head? = some mark then (true, text.tail) else (false, text)

theorem readSign_cons (mark : Char) (text : List Char) :
    readSign mark (mark :: text) = (true, text) := if_pos rfl

theorem readSign_of_ne {mark : Char} {text : List Char} (other : text.head? ≠ some mark) :
    readSign mark text = (false, text) := if_neg other

end Numeral

open Numeral

namespace Itanium

/-- Reads an integer and the `E` behind it. -/
def readValue (text : List Char) : Option ((Bool × Nat) × List Char) :=
  let (isNegative, digits) := readSign 'n' text
  match readDecimal digits with
  | some (magnitude, 'E' :: rest) => some ((isNegative, magnitude), rest)
  | _ => none

theorem readValue_literal (basic : BasicType) (number : Int) (rest : List Char) :
    readValue (Token.write (literal basic number ++ [.text "E"]) ++ rest) =
      some (basic.signMagnitude number, rest) := by
  rcases value : basic.signMagnitude number with ⟨isNegative, magnitude⟩
  have digits : readDecimal (decimal magnitude ++ 'E' :: rest) = some (magnitude, 'E' :: rest) :=
    readDecimal_append (by simp) magnitude
  have unsigned : (decimal magnitude ++ 'E' :: rest).head? ≠ some 'n' :=
    head?_append_ne (by decide) (by decide) magnitude _
  cases isNegative with
  | true =>
      have written : Token.write (literal basic number ++ [.text "E"]) ++ rest =
          'n' :: (decimal magnitude ++ 'E' :: rest) := by
        simp [literal, value, Token.write, Token.chars]
      rw [written, readValue, readSign_cons]
      simp only [digits]
  | false =>
      have written : Token.write (literal basic number ++ [.text "E"]) ++ rest =
          decimal magnitude ++ 'E' :: rest := by
        simp [literal, value, Token.write, Token.chars]
      rw [written, readValue, readSign_of_ne unsigned]
      simp only [digits]

end Itanium

namespace Microsoft

/-- Reads a number: one digit for 1 to 10, or letters and the `@` behind them. -/
def readNumber : List Char → Option (Nat × List Char)
  | [] => none
  | first :: rest =>
    if first.isDigit then some (first.toNat - '0'.toNat + 1, rest)
    else
      match readHexLetters (first :: rest) with
      | some (number, '@' :: rest) => some (number, rest)
      | _ => none

/-- Reads `$0` and an integer. -/
def readValue : List Char → Option ((Bool × Nat) × List Char)
  | '$' :: '0' :: text =>
    let (isNegative, digits) := readSign '?' text
    (readNumber digits).map fun (magnitude, rest) => ((isNegative, magnitude), rest)
  | _ => none

theorem readNumber_append (number : Nat) (rest : List Char) :
    readNumber (numberChars number ++ rest) = some (number, rest) := by
  unfold numberChars
  split
  · next small =>
    have every : ∀ digit < 10, (digitChar digit).isDigit = true ∧
        (digitChar digit).toNat - '0'.toNat = digit := by decide
    obtain ⟨isDigit, place⟩ := every (number - 1) (by omega)
    rw [List.singleton_append, readNumber, if_pos isDigit, place, Nat.sub_add_cancel small.1]
  · have letters : readHexLetters (hexLetters number ++ '@' :: rest) = some (number, '@' :: rest) :=
      readHexLetters_append (by simp; decide) number
    obtain ⟨first, others, numeral⟩ := List.exists_cons_of_ne_nil
      (show hexLetters number ≠ [] by simp [hexLetters, digits_ne_nil])
    have every : ∀ digit < 16, (letterChar digit).isDigit = false := by decide
    have letter : first.isDigit = false := by
      have listed : first ∈ hexLetters number := numeral ▸ List.mem_cons_self
      obtain ⟨digit, known, rfl⟩ := List.mem_map.mp listed
      exact every digit (digits_lt (by decide) number digit known)
    rw [numeral, List.cons_append] at letters
    simp only [numeral, List.cons_append, List.append_assoc, List.nil_append, readNumber, letter,
      letters, Bool.false_eq_true, if_false]

theorem readValue_literal (basic : BasicType) (number : Int) (rest : List Char) :
    readValue (Token.write (.text "$0" :: literal basic number) ++ rest) =
      some (basic.signMagnitude number, rest) := by
  rcases value : basic.signMagnitude number with ⟨isNegative, magnitude⟩
  have digits := readNumber_append magnitude rest
  have unsigned : (numberChars magnitude ++ rest).head? ≠ some '?' := by
    unfold numberChars
    split
    · next small =>
      have every : ∀ digit < 10, digitChar digit ≠ '?' := by decide
      simpa using every (magnitude - 1) (by omega)
    · rw [List.append_assoc]
      exact head?_append_ne (by decide) (by decide) magnitude _
  cases isNegative with
  | true =>
      have written : Token.write (.text "$0" :: literal basic number) ++ rest =
          '$' :: '0' :: '?' :: (numberChars magnitude ++ rest) := by
        simp [literal, value, Token.write, Token.chars]
      rw [written, readValue, readSign_cons]
      simp only [digits, Option.map_some]
  | false =>
      have written : Token.write (.text "$0" :: literal basic number) ++ rest =
          '$' :: '0' :: (numberChars magnitude ++ rest) := by
        simp [literal, value, Token.write, Token.chars]
      rw [written, readValue, readSign_of_ne unsigned]
      simp only [digits, Option.map_some]

end Microsoft

end LinkName
