import LinkName.Numeral

/-!
The tokens of a Microsoft name. A back-reference is a single digit, which of the two tables it
refers to being clear from where it stands. Numbers from 1 to 10 are one digit; others are
hexadecimal numerals over the letters `A` to `P`, ended by `@`.
-/
namespace LinkName.Microsoft

inductive Token where
  | text (written : String)
  | ident (written : String)
  | number (value : Nat)
  /-- Refers back to a recorded name. -/
  | nameRef (index : Nat)
  /-- Refers back to the type of a parameter. -/
  | typeRef (index : Nat)
  deriving DecidableEq, Repr

def numberChars (value : Nat) : List Char :=
  if 1 ≤ value ∧ value ≤ 10 then [Numeral.digitChar (value - 1)]
  else Numeral.hexLetters value ++ ['@']

namespace Token

def chars : Token → List Char
  | .text written => written.toList
  | .ident written => written.toList
  | .number value => numberChars value
  | .nameRef index => [Numeral.digitChar index]
  | .typeRef index => [Numeral.digitChar index]

/-- The characters of a sequence of tokens. -/
def write (tokens : List Token) : List Char := tokens.flatMap chars

theorem write_append (left right : List Token) :
    write (left ++ right) = write left ++ write right :=
  List.flatMap_append

end Token

end LinkName.Microsoft
