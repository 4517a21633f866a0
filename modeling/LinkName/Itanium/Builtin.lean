import LinkName.Decl.BasicType
import LinkName.Target.Basic

/-!
The codes of builtin types in Itanium names. Which of `long` and `long long` has 64 bits, whether
`long double` is a quadruple float and whether symbols carry an extra underscore is asked of the
target wherever it matters.
-/
namespace LinkName.Target

/-- What every Itanium name but that of a free variable starts with. -/
def lead (target : Target) : String := if target.machO then "__Z" else "_Z"

/-- The target that answers what Itanium names ask as `target` does, and all else as a common one. -/
def itaniumFacts (target : Target) : Target where
  abi := .itanium
  pointerBits := 64
  longBits := if target.longBits == 64 then 64 else 32
  realSize := if target.realSize - target.realPadding == 16 then 16 else 8
  realPadding := 0
  machO := target.machO

end LinkName.Target

namespace LinkName.Itanium

/-- The imaginary and complex types are vendor extensions, and can be referred back to even without
qualifiers. -/
def isExtended : BasicType → Bool
  | .imaginary32 | .imaginary64 | .imaginary80 | .complex32 | .complex64 | .complex80 => true
  | _ => false

def builtin (machine : Target) : BasicType → String
  | .void => "v"
  | .bool => "b"
  | .char => "c"
  | .wchar => "t"
  | .dchar => "w"
  | .int8 => "a"
  | .uint8 => "h"
  | .int16 => "s"
  | .uint16 => "t"
  | .int32 => "i"
  | .uint32 => "j"
  | .int64 => if machine.longBits == 64 then "l" else "x"
  | .uint64 => if machine.longBits == 64 then "m" else "y"
  | .int128 => "n"
  | .uint128 => "o"
  | .float32 => "f"
  | .float64 => "d"
  | .float80 => if machine.realSize - machine.realPadding == 16 then "g" else "e"
  | .imaginary32 => "Gf"
  | .imaginary64 => "Gd"
  | .imaginary80 => "Ge"
  | .complex32 => "Cf"
  | .complex64 => "Cd"
  | .complex80 => "Ce"

end LinkName.Itanium
