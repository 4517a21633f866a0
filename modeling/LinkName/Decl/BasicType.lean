/-!
The builtin scalar types of a declaration, with the spelling that diagnostics use. Character types
are the code units of the three Unicode forms; the last nine are the real, imaginary and complex
floating types in three widths.
-/
namespace LinkName

inductive BasicType where
  | void
  | bool
  | char
  | wchar
  | dchar
  | int8
  | uint8
  | int16
  | uint16
  | int32
  | uint32
  | int64
  | uint64
  | int128
  | uint128
  | float32
  | float64
  | float80
  | imaginary32
  | imaginary64
  | imaginary80
  | complex32
  | complex64
  | complex80
  deriving DecidableEq, Repr

namespace BasicType

def spelling : BasicType → String
  | void => "void"
  | bool => "bool"
  | char => "char"
  | wchar => "wchar"
  | dchar => "dchar"
  | int8 => "byte"
  | uint8 => "ubyte"
  | int16 => "short"
  | uint16 => "ushort"
  | int32 => "int"
  | uint32 => "uint"
  | int64 => "long"
  | uint64 => "ulong"
  | int128 => "cent"
  | uint128 => "ucent"
  | float32 => "float"
  | float64 => "double"
  | float80 => "real"
  | imaginary32 => "ifloat"
  | imaginary64 => "idouble"
  | imaginary80 => "ireal"
  | complex32 => "cfloat"
  | complex64 => "cdouble"
  | complex80 => "creal"

instance : ToString BasicType := ⟨spelling⟩

/-- Whether the values of the type are non-negative integers. Truth values and code units are. -/
def isUnsigned : BasicType → Bool
  | bool | char | wchar | dchar | uint8 | uint16 | uint32 | uint64 | uint128 => true
  | _ => false

def isSigned : BasicType → Bool
  | int8 | int16 | int32 | int64 | int128 => true
  | _ => false

/-- Whether a value of the type can be a template argument. -/
def isIntegral (basic : BasicType) : Bool := basic.isUnsigned || basic.isSigned

/-- The sign and the magnitude of a value argument. A signed type reads the value as it is, an
unsigned one as a bit pattern, which has 128 bits for the widest type and 64 bits for all others. -/
def signMagnitude (basic : BasicType) (number : Int) : Bool × Nat :=
  if basic = .uint128 then (false, (BitVec.ofInt 128 number).toNat)
  else if basic.isUnsigned then (false, (BitVec.ofInt 64 number).toNat)
  else (decide (number < 0), number.natAbs)

end BasicType

end LinkName
