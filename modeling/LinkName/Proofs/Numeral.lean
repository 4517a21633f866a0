import LinkName.Numeral
import Mathlib.Algebra.Group.Nat.Defs
import Mathlib.Data.List.Basic
import Mathlib.Data.List.Induction

/-!
Numerals as they are read back. A numeral is not empty, and it ends where the first character comes
that is no digit; so whatever such a character follows, the number can be told.
-/
namespace LinkName.Numeral

theorem digits_ne_nil (base number : Nat) : digits base number ≠ [] := by
  unfold digits digitsWithin
  split <;> simp

theorem digits_injective {base : Nat} (large : 2 ≤ base) : Function.Injective (digits base) := by
  intro number other same
  rw [← value_digits large number, same, value_digits large]

theorem digitChar_injective {digit other : Nat} (small : digit < 36) (small' : other < 36)
    (same : digitChar digit = digitChar other) : digit = other := by
  have every : ∀ digit < 36, ∀ other < 36, digitChar digit = digitChar other → digit = other := by
    decide +kernel
  exact every digit small other small' same

/-- The digits of numbers in a base up to 36 are told apart by their characters. -/
theorem chars_injective {base number other : Nat} (large : 2 ≤ base) (small : base ≤ 36)
    (same : (digits base number).map digitChar = (digits base other).map digitChar) :
    number = other := by
  refine digits_injective large ?_
  have lengths : (digits base number).length = (digits base other).length := by
    simpa using congrArg List.length same
  refine List.ext_getElem lengths fun place inside inside' => ?_
  have alike : ((digits base number).map digitChar)[place]? =
      ((digits base other).map digitChar)[place]? := by rw [same]
  rw [List.getElem?_map, List.getElem?_map, List.getElem?_eq_getElem inside,
    List.getElem?_eq_getElem inside'] at alike
  have bound := digits_lt (by omega : 0 < base) number _ (List.getElem_mem inside)
  have bound' := digits_lt (by omega : 0 < base) other _ (List.getElem_mem inside')
  exact digitChar_injective (by omega) (by omega) (Option.some.inj alike)

/-- Two texts that start with characters of one kind and go on with others split in the same
place. -/
theorem append_split (kind : Char → Prop) {first second rest rest' : List Char}
    (inside : ∀ char ∈ first, kind char) (inside' : ∀ char ∈ second, kind char)
    (ends : ∀ char ∈ rest.head?, ¬ kind char) (ends' : ∀ char ∈ rest'.head?, ¬ kind char)
    (same : first ++ rest = second ++ rest') : first = second ∧ rest = rest' := by
  induction first generalizing second with
  | nil =>
      cases second with
      | nil => exact ⟨rfl, same⟩
      | cons char others =>
          subst same
          exact absurd (inside' char List.mem_cons_self) (ends char rfl)
  | cons char others ih =>
      cases second with
      | nil =>
          subst same
          exact absurd (inside char List.mem_cons_self) (ends' char rfl)
      | cons char' others' =>
          obtain ⟨rfl, further⟩ := List.cons.inj same
          obtain ⟨rfl, left⟩ := ih (fun other listed => inside other (List.mem_cons_of_mem _ listed))
            (fun other listed => inside' other (List.mem_cons_of_mem _ listed)) further
          exact ⟨rfl, left⟩

theorem isDigit_of_mem_decimal {number : Nat} {char : Char} (listed : char ∈ decimal number) :
    char.isDigit = true := by
  have every : ∀ digit < 10, (digitChar digit).isDigit = true := by decide
  obtain ⟨digit, known, rfl⟩ := List.mem_map.mp listed
  exact every digit (digits_lt (by decide) number digit known)

theorem ne_underscore_of_mem_base36 {number : Nat} {char : Char} (listed : char ∈ base36 number) :
    char ≠ '_' := by
  have every : ∀ digit < 36, digitChar digit ≠ '_' := by decide
  obtain ⟨digit, known, rfl⟩ := List.mem_map.mp listed
  exact every digit (digits_lt (by decide) number digit known)

theorem decimal_append_inj {number other : Nat} {rest rest' : List Char}
    (ends : ∀ char ∈ rest.head?, char.isDigit = false)
    (ends' : ∀ char ∈ rest'.head?, char.isDigit = false)
    (same : decimal number ++ rest = decimal other ++ rest') : number = other ∧ rest = rest' := by
  obtain ⟨numerals, left⟩ := append_split (fun char => char.isDigit = true)
    (fun _ => isDigit_of_mem_decimal) (fun _ => isDigit_of_mem_decimal)
    (fun char first => by simp [ends char first]) (fun char first => by simp [ends' char first]) same
  exact ⟨chars_injective (by decide) (by decide) numerals, left⟩

theorem base36_append_inj {number other : Nat} {rest rest' : List Char}
    (same : base36 number ++ '_' :: rest = base36 other ++ '_' :: rest') :
    number = other ∧ rest = rest' := by
  obtain ⟨numerals, left⟩ := append_split (· ≠ '_')
    (fun _ => ne_underscore_of_mem_base36) (fun _ => ne_underscore_of_mem_base36)
    (by simp) (by simp) same
  exact ⟨chars_injective (by decide) (by decide) numerals, (List.cons.inj left).2⟩

theorem value_le_append (places more : List Nat) : value 10 places ≤ value 10 (places ++ more) := by
  induction more using List.reverseRecOn with
  | nil => simp
  | append_singleton more last ih =>
      rw [← List.append_assoc, value_concat]
      omega

/-- Characters are read back as the digits that they stand for. -/
theorem map_digitChar_injective {places places' : List Nat} (small : ∀ digit ∈ places, digit < 10)
    (small' : ∀ digit ∈ places', digit < 10)
    (same : places.map digitChar = places'.map digitChar) : places = places' := by
  have back {places : List Nat} (small : ∀ digit ∈ places, digit < 10) :
      (places.map digitChar).map (fun char => char.toNat - '0'.toNat) = places := by
    have every : ∀ digit < 10, (digitChar digit).toNat - '0'.toNat = digit := by decide
    rw [List.map_map]
    exact (List.map_congr_left fun digit listed => every digit (small digit listed)).trans
      places.map_id'
  rw [← back small, same, back small']

/-- A numeral that goes on where another one ends is that of a number at least as large. -/
theorem le_of_decimal_append {number other : Nat} {rest : List Char}
    (same : decimal other = decimal number ++ rest) : number ≤ other := by
  obtain ⟨first, more, whole, starts, -⟩ := List.map_eq_append_iff.mp same
  have small (number : Nat) : ∀ digit ∈ digits 10 number, digit < 10 := digits_lt (by decide) number
  have inside : ∀ digit ∈ first, digit < 10 := fun digit listed =>
    small other digit (whole ▸ List.mem_append_left more listed)
  have same := map_digitChar_injective inside (small number) starts
  calc number = value 10 (digits 10 number) := (value_digits (by decide) number).symm
    _ ≤ value 10 (digits 10 number ++ more) := value_le_append _ _
    _ = value 10 (digits 10 other) := by rw [whole, same]
    _ = other := value_digits (by decide) other

theorem length_digitsWithin_le {base places : Nat} :
    ∀ {fuel number : Nat}, number < base ^ (places + 1) →
      (digitsWithin base fuel number).length ≤ places + 1 := by
  induction places with
  | zero =>
      intro fuel number bound
      cases fuel with
      | zero => simp [digitsWithin]
      | succ fuel => simp [digitsWithin, show number < base by simpa using bound]
  | succ places ih =>
      intro fuel number bound
      cases fuel with
      | zero => simp [digitsWithin]
      | succ fuel =>
          unfold digitsWithin
          split
          · simp
          · have less : number / base < base ^ (places + 1) :=
              Nat.div_lt_of_lt_mul (by rwa [← Nat.pow_succ'])
            simpa using ih less

/-- A number below a power of the base has as many digits as the power says. -/
theorem length_digits_le {base places number : Nat} (bound : number < base ^ (places + 1)) :
    (digits base number).length ≤ places + 1 :=
  length_digitsWithin_le bound

theorem length_hexLetters_le {number : Nat} (bound : number < 2 ^ 128) :
    (hexLetters number).length ≤ 32 := by
  have digits : (digits 16 number).length ≤ 31 + 1 := length_digits_le (by omega)
  simpa [hexLetters] using digits

theorem length_base36_le {number : Nat} (bound : number < 36 ^ 7) :
    (base36 number).length ≤ 7 := by
  have digits : (digits 36 number).length ≤ 6 + 1 := length_digits_le bound
  simpa [base36] using digits

end LinkName.Numeral
