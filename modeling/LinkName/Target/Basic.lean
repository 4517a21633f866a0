/-!
What a name depends on besides the declaration: the family of names that the target uses, the widths
of pointers and of `long`, the size of `long double`, and whether the object format puts an
underscore before every symbol.
-/
namespace LinkName

/-- The two forms of Microsoft names. -/
inductive Dialect where
  | modern
  /-- The older spelling of 32-bit toolchains. -/
  | legacy
  deriving DecidableEq, Repr

inductive Abi where
  | itanium
  | microsoft (dialect : Dialect)
  deriving DecidableEq, Repr

structure Target where
  abi : Abi
  pointerBits : Nat
  longBits : Nat
  /-- The bytes of a `long double`, padding included. -/
  realSize : Nat
  /-- The bytes of padding at its end. -/
  realPadding : Nat
  machO : Bool := false
  deriving DecidableEq, Repr

namespace Target

/-- 64-bit x86 with names of the Itanium family. -/
def itanium64 : Target where
  abi := .itanium
  pointerBits := 64
  longBits := 64
  realSize := 16
  realPadding := 6

/-- 64-bit x86 with Microsoft names. -/
def microsoft64 : Target where
  abi := .microsoft .modern
  pointerBits := 64
  longBits := 32
  realSize := 8
  realPadding := 0

def is64Bit (target : Target) : Bool := target.pointerBits == 64

def dialect? (target : Target) : Option Dialect :=
  match target.abi with
  | .itanium => none
  | .microsoft dialect => some dialect

end Target

end LinkName
