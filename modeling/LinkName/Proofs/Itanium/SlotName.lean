import LinkName.Proofs.Itanium.Token
import LinkName.Proofs.Readers
import Mathlib.Data.Nat.Digits.Lemmas

/-!
The names of slots. The first slot has no number; each later one is written with the index of the one
before it, as a numeral in base 36 with no zero in front. The underscore ends the name, so a slot is
read back whatever follows.
-/
namespace LinkName

namespace Numeral

/-! ## Numerals without leading zeros -/

theorem value_eq_ofDigits (base : Nat) (places : List Nat) :
    value base places = Nat.ofDigits base places.reverse := by
  induction places using List.reverseRecOn with
  | nil => rfl
  | append_singleton places last ih =>
      rw [value_concat, ih, List.reverse_append, List.reverse_singleton, List.singleton_append,
        Nat.ofDigits_cons, Nat.mul_comm, Nat.add_comm]

theorem digitsWithin_eq_reverse {base : Nat} (large : 1 < base) :
    ∀ fuel number, 0 < number → number < fuel →
      digitsWithin base fuel number = (Nat.digits base number).reverse
  | 0, number, _, bound => absurd bound (Nat.not_lt_zero number)
  | fuel + 1, number, positive, bound => by
    unfold digitsWithin
    split
    · next small => rw [Nat.digits_of_lt base number positive.ne' small, List.reverse_singleton]
    · next wide =>
      have less : number / base < number := Nat.div_lt_self positive large
      have left : 0 < number / base := Nat.div_pos (Nat.not_lt.mp wide) (by omega)
      rw [Nat.digits_def' large positive, List.reverse_cons,
        digitsWithin_eq_reverse large fuel (number / base) left (by omega)]

theorem digits_eq_reverse {base number : Nat} (large : 1 < base) (positive : 0 < number) :
    digits base number = (Nat.digits base number).reverse :=
  digitsWithin_eq_reverse large (number + 1) number positive (Nat.lt_succ_self number)

theorem digits_zero {base : Nat} (positive : 0 < base) : digits base 0 = [0] := if_pos positive

/-- The digits start with a zero only if it is all there is. -/
theorem digits_unpadded {base number : Nat} (large : 1 < base)
    (starts : (digits base number).head? = some 0) : digits base number = [0] := by
  rcases Nat.eq_zero_or_pos number with rfl | positive
  · exact digits_zero (by omega)
  · rw [digits_eq_reverse large positive, List.head?_reverse] at starts
    exact absurd (List.getLast_of_getLast?_eq_some starts) (Nat.getLast_digit_ne_zero base positive.ne')

/-- No other digits than those of a number denote it, if no zero is put before them. -/
theorem digits_value {base : Nat} {places : List Nat} (large : 1 < base) (nonempty : places ≠ [])
    (small : ∀ digit ∈ places, digit < base) (unpadded : places.head? = some 0 → places = [0]) :
    digits base (value base places) = places := by
  by_cases zero : places.head? = some 0
  · rw [unpadded zero]
    have none : value base [0] = 0 := by simp [value]
    rw [none, digits_zero (by omega)]
  · have reversed : Nat.digits base (value base places) = places.reverse := by
      rw [value_eq_ofDigits]
      refine Nat.digits_ofDigits base large _ (by simpa using small) fun _ last => zero ?_
      rw [List.getLast_reverse] at last
      rw [List.head?_eq_some_head nonempty, last]
    have positive : 0 < value base places := by
      refine Nat.pos_of_ne_zero fun none => nonempty ?_
      rwa [none, Nat.digits_zero, eq_comm, List.reverse_eq_nil_iff] at reversed
    rw [digits_eq_reverse large positive, reversed, List.reverse_reverse]

/-- A text is the numeral of a number in base 36: it consists of digits and capital letters, denotes
the number, and has no zero before its first place. -/
structure IsBase36 (number : Nat) (text : List Char) : Prop where
  nonempty : text ≠ []
  kind : ∀ char ∈ text, isBase36Digit char = true
  denotes : value 36 (text.map base36Place) = number
  unpadded : text.head? = some '0' → text = ['0']

theorem digitChar_base36Place {char : Char} (kind : isBase36Digit char = true) :
    base36Place char < 36 ∧ digitChar (base36Place char) = char := by
  unfold base36Place digitChar
  cases digit : char.isDigit with
  | true =>
      obtain ⟨low, high⟩ : 48 ≤ char.toNat ∧ char.toNat ≤ 57 := by
        simpa [Char.isDigit, UInt32.le_iff_toNat_le] using digit
      have zero : '0'.toNat = 48 := rfl
      have small : char.toNat - '0'.toNat < 10 := by omega
      have back : '0'.toNat + (char.toNat - '0'.toNat) = char.toNat := by omega
      rw [if_pos rfl, if_pos small, back, Char.ofNat_toNat]
      exact ⟨by omega, rfl⟩
  | false =>
      obtain ⟨low, high⟩ : 65 ≤ char.toNat ∧ char.toNat ≤ 90 := by
        simpa [isBase36Digit, digit, Char.le_def, UInt32.le_iff_toNat_le] using kind
      have first : 'A'.toNat = 65 := rfl
      have back : 'A'.toNat + (char.toNat - 'A'.toNat) = char.toNat := by omega
      rw [if_neg Bool.false_ne_true, if_neg (by omega), Nat.add_sub_cancel, back, Char.ofNat_toNat]
      exact ⟨by omega, rfl⟩

theorem isBase36_iff {number : Nat} {text : List Char} :
    IsBase36 number text ↔ text = base36 number := by
  constructor
  · rintro ⟨nonempty, kind, rfl, unpadded⟩
    have small : ∀ digit ∈ text.map base36Place, digit < 36 := by
      intro digit listed
      obtain ⟨char, known, rfl⟩ := List.mem_map.mp listed
      exact (digitChar_base36Place (kind char known)).1
    have starts : (text.map base36Place).head? = some 0 → text.map base36Place = [0] := by
      intro starts
      rw [List.head?_map] at starts
      obtain ⟨first, known, zero⟩ := Option.map_eq_some_iff.mp starts
      have char := (digitChar_base36Place (kind first (List.mem_of_mem_head? known))).2
      rw [zero] at char
      rw [unpadded (known.trans (congrArg some char.symm))]
      rfl
    rw [base36, digits_value (by decide) (by simpa using nonempty) small starts]
    exact (map_map_eq_self fun char known => (digitChar_base36Place (kind char known)).2).symm
  · rintro rfl
    have small := digits_lt (by decide : 0 < 36) number
    refine ⟨fun none => digits_ne_nil 36 number (List.map_eq_nil_iff.mp none), fun char listed => ?_,
      ?_, fun starts => ?_⟩
    · obtain ⟨digit, known, rfl⟩ := List.mem_map.mp listed
      exact (base36_reads digit (small digit known)).1
    · have places : (base36 number).map base36Place = digits 36 number :=
        map_map_eq_self fun digit known => (base36_reads digit (small digit known)).2
      rw [places, value_digits (by decide)]
    · rw [base36, List.head?_map] at starts
      obtain ⟨first, known, zero⟩ := Option.map_eq_some_iff.mp starts
      have same : first = 0 := digitChar_injective (small first (List.mem_of_mem_head? known))
        (by decide) zero
      rw [base36, digits_unpadded (by decide) (known.trans (congrArg some same))]
      rfl

end Numeral

namespace Itanium

open Numeral

/-! ## Reading the name of a slot -/

/-- Reads the name of a slot: `S_` is the first one, and a sequence number between `S` and `_` that
of the slot after it. -/
def readSlot : List Char → Option (Nat × List Char)
  | 'S' :: '_' :: rest => some (0, rest)
  | 'S' :: text =>
    match readBase36 text with
    | some (sequence, '_' :: rest) => some (sequence + 1, rest)
    | _ => none
  | _ => none

theorem readSlot_append (slot : Nat) (rest : List Char) :
    readSlot (slotChars slot ++ rest) = some (slot, rest) := by
  cases slot with
  | zero => rfl
  | succ sequence =>
      have numeral : readBase36 (base36 sequence ++ '_' :: rest) = some (sequence, '_' :: rest) :=
        readBase36_append (by simp; decide) sequence
      have later (rest' : List Char) : base36 sequence ++ '_' :: rest ≠ '_' :: rest' := fun same =>
        head?_append_ne (by decide) (by decide) sequence _ (congrArg List.head? same)
      have written : slotChars (sequence + 1) ++ rest = 'S' :: (base36 sequence ++ '_' :: rest) := by
        simp [slotChars, sequenceChars]
      rw [written, readSlot.eq_2 _ later, numeral]
      rfl

/-- A sequence number of 32 bits is written as its numeral in base 36, without leading zeros and in
at most seven characters. Every slot up to the last one that has such a number has a name, the one
that stands in names for it, from which the slot is read back whatever follows; and the name of no
other slot is the same or starts with it. -/
theorem slot_names_read_back :
    (∀ number < UInt32.size,
      (∀ text, IsBase36 number text ↔ text = base36 number) ∧ (base36 number).length ≤ 7) ∧
    ∀ slot ≤ UInt32.size, ∃ name, slotName? slot = some name ∧
      name.toList = Token.chars (.backRef slot) ∧
      (∀ rest, readSlot (name.toList ++ rest) = some (slot, rest)) ∧
      ∀ other name', slotName? other = some name' → name.toList <+: name'.toList → slot = other := by
  refine ⟨fun number bound => ⟨fun _ => isBase36_iff, length_base36_le (bound.trans (by decide))⟩,
    fun slot bound => ⟨_, slotName?_eq_some_iff.mpr ⟨bound, rfl⟩, String.toList_ofList,
      fun rest => ?_, ?_⟩⟩
  · rw [String.toList_ofList, readSlot_append]
  · intro other name' named starts
    obtain ⟨-, rfl⟩ := slotName?_eq_some_iff.mp named
    rw [String.toList_ofList, String.toList_ofList] at starts
    exact eq_of_prefix_of_read readSlot_append starts

/-- The last slot that has a name, and a text that goes on with another name. -/
theorem slot_names_read_back_last : slotName? UInt32.size = some "S1Z141Z3_" ∧
    readSlot "S1Z141Z3_S_".toList = some (UInt32.size, "S_".toList) := by
  obtain ⟨name, named, -, read, -⟩ := slot_names_read_back.2 UInt32.size le_rfl
  have written : slotName? UInt32.size = some "S1Z141Z3_" := by decide +kernel
  obtain rfl : name = "S1Z141Z3_" := Option.some.inj (named.symm.trans written)
  exact ⟨written, read "S_".toList⟩

end Itanium

end LinkName
