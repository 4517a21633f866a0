import LinkName.Decl.Symbol
import LinkName.Target.Basic

/-!
The letter codes of Microsoft names. What they ask of a target is its dialect and whether pointers
have 64 bits. A target of another family gets the modern dialect.
-/
namespace LinkName.Target

def isLegacy (target : Target) : Bool := target.dialect?.getD .modern == .legacy

end LinkName.Target

namespace LinkName.Microsoft

def builtin? (machine : Target) : BasicType → Option String
  | .void => some "X"
  | .int8 => some "C"
  | .uint8 => some "E"
  | .int16 => some "F"
  | .uint16 | .wchar => some "G"
  | .int32 => some "H"
  | .uint32 => some "I"
  | .float32 => some "M"
  | .int64 => some "_J"
  | .uint64 => some "_K"
  | .float64 => some "N"
  | .bool => some "_N"
  | .char => some "D"
  | .float80 => some (if machine.isLegacy then "_Z" else "_T")
  | .dchar => some (if machine.isLegacy then "_Y" else "_W")
  | _ => none

/-- The code of an enumeration is that of its base type. -/
def enumBase? : BasicType → Option String
  | .char | .int8 => some "W0"
  | .uint8 => some "W1"
  | .int16 => some "W2"
  | .uint16 => some "W3"
  | .int32 => some "W4"
  | .uint32 => some "W5"
  | .int64 => some "W6"
  | .uint64 => some "W7"
  | _ => none

/-- 64-bit targets have a single calling convention. Elsewhere a C++ member function has its own,
unless it takes variable arguments, and there is none for the linkage of the language itself. -/
def convention? (machine : Target) (linkage : Linkage) (isMember : Bool) : Option String :=
  if machine.is64Bit then some "A"
  else
    match linkage with
    | .c => some "A"
    | .cpp => some (if isMember then "E" else "A")
    | .windows => some "G"
    | .pascal => some "C"
    | .d => none

/-- A function with a receiver. -/
def methodCode (isVirtual : Bool) : Access → String
  | .priv => if isVirtual then "E" else "A"
  | .prot => if isVirtual then "M" else "I"
  | .pub => if isVirtual then "U" else "Q"

/-- A function of a record without a receiver. -/
def staticCode : Access → String
  | .priv => "C"
  | .prot => "K"
  | .pub => "S"

/-- A variable inside a scope. -/
def memberCode : Access → String
  | .priv => "0"
  | .prot => "1"
  | .pub => "2"

def recordCode : RecordKind → String
  | .union => "T"
  | .struct => "U"
  | .klass => "V"

end LinkName.Microsoft
