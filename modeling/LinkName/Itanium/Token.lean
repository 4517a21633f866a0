import LinkName.Numeral

/-!
The tokens of an Itanium name. A source name is preceded by its length in bytes, so it needs no end
mark. The slots of the substitution table are written `S_`, `S0_`, `S1_` and so on in base 36.
-/
namespace LinkName.Itanium

inductive Token where
  | text (written : String)
  | source (ident : String)
  | number (value : Nat)
  /-- Refers back to a slot of the substitution table. -/
  | backRef (slot : Nat)
  deriving DecidableEq, Repr

def sourceChars (ident : String) : List Char :=
  Numeral.decimal ident.utf8ByteSize ++ ident.toList

def sequenceChars : Nat → List Char
  | 0 => []
  | sequence + 1 => Numeral.base36 sequence

def slotChars (slot : Nat) : List Char := 'S' :: (sequenceChars slot ++ ['_'])

/-- The name of a slot. If there are only so many sequence numbers, later slots have none; commonly
they have 32 bits. -/
def slotName? (slot : Nat) (numbers : Option Nat := some UInt32.size) : Option String :=
  if numbers.all (slot ≤ ·) then some (String.ofList (slotChars slot)) else none

theorem slotName?_eq_some_iff {slot limit : Nat} {name : String} :
    slotName? slot (some limit) = some name ↔
      slot ≤ limit ∧ name = String.ofList (slotChars slot) := by
  simp [slotName?, eq_comm]

namespace Token

def chars : Token → List Char
  | .text written => written.toList
  | .source ident => sourceChars ident
  | .number value => Numeral.decimal value
  | .backRef slot => slotChars slot

/-- The characters of a sequence of tokens. -/
def write (tokens : List Token) : List Char := tokens.flatMap chars

theorem write_append (left right : List Token) :
    write (left ++ right) = write left ++ write right :=
  List.flatMap_append

end Token

end LinkName.Itanium
