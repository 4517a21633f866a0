/-!
Numerals. The digits of a number in a base are listed most significant first and carry no leading
zero; reading them back gives the number. Digits are written `0` to `9` and then `A` upwards, or,
for the numerals that must not start with a digit, as the letters from `A` alone.
-/
namespace LinkName.Numeral

/-- The digits of `number`, as far as `fuel` places reach. -/
def digitsWithin (base : Nat) : Nat → Nat → List Nat
  | 0, _ => []
  | fuel + 1, number =>
    if number < base then [number]
    else digitsWithin base fuel (number / base) ++ [number % base]

def digits (base number : Nat) : List Nat := digitsWithin base (number + 1) number

/-- The number that a list of digits denotes. -/
def value (base : Nat) (places : List Nat) : Nat :=
  places.foldl (fun total digit => total * base + digit) 0

theorem value_concat (base : Nat) (places : List Nat) (last : Nat) :
    value base (places ++ [last]) = value base places * base + last := by
  simp [value]

theorem value_digitsWithin {base : Nat} (large : 2 ≤ base) :
    ∀ fuel number, number < fuel → value base (digitsWithin base fuel number) = number
  | 0, number, bound => absurd bound (Nat.not_lt_zero number)
  | fuel + 1, number, bound => by
    unfold digitsWithin
    split
    · simp [value]
    · next wide =>
      have shrinks : number / base < number := Nat.div_lt_self (by omega) (by omega)
      rw [value_concat, value_digitsWithin large fuel (number / base) (by omega)]
      exact Nat.div_add_mod' number base

theorem value_digits {base : Nat} (large : 2 ≤ base) (number : Nat) :
    value base (digits base number) = number :=
  value_digitsWithin large (number + 1) number (Nat.lt_succ_self number)

theorem digitsWithin_lt {base : Nat} (positive : 0 < base) :
    ∀ fuel number, ∀ digit ∈ digitsWithin base fuel number, digit < base
  | 0, _, _, listed => by simp [digitsWithin] at listed
  | fuel + 1, number, digit, listed => by
    unfold digitsWithin at listed
    split at listed
    · next small => simp_all
    · rcases List.mem_append.mp listed with earlier | last
      · exact digitsWithin_lt positive fuel (number / base) digit earlier
      · rw [List.mem_singleton.mp last]; exact Nat.mod_lt number positive

theorem digits_lt {base : Nat} (positive : 0 < base) (number : Nat) :
    ∀ digit ∈ digits base number, digit < base :=
  digitsWithin_lt positive (number + 1) number

/-- The usual digit character: `0` to `9`, then the capital letters. -/
def digitChar (digit : Nat) : Char :=
  if digit < 10 then Char.ofNat ('0'.toNat + digit) else Char.ofNat ('A'.toNat + (digit - 10))

/-- The letter that stands for a digit where digits themselves are taken. -/
def letterChar (digit : Nat) : Char := Char.ofNat ('A'.toNat + digit)

def decimal (number : Nat) : List Char := (digits 10 number).map digitChar

def base36 (number : Nat) : List Char := (digits 36 number).map digitChar

/-- Hexadecimal with the letters `A` to `P`. -/
def hexLetters (number : Nat) : List Char := (digits 16 number).map letterChar

end LinkName.Numeral
