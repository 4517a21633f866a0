import LinkName.Refusal
import LinkName.Target.Basic

/-!
Target triples. The fields of a triple are separated by `-`: an architecture, which is spelled
exactly, and then some of vendor, operating system, environment and object format. Systems and
environments are recognised by how a field starts, object formats by how it ends. Of each field only
what decides the facts of a target is kept.
-/
namespace LinkName

/-- The architectures, as far as they are told apart. All but 64-bit x86 have a fixed pointer
width. -/
inductive Architecture where
  | x86 (pointerBits : Nat)
  | x86_64
  | other (pointerBits : Nat)
  deriving DecidableEq, Repr

namespace Architecture

def spellings : List (Architecture × List String) :=
  [(x86 16, ["i86", "i8086", "i186", "i286"]),
   (x86 32, ["i386", "i486", "i586", "i686", "i786"]),
   (x86_64, ["amd64", "x86_64", "x86_64h", "x86_64v2", "x86_64v3", "x86_64v4", "x64"]),
   (other 16,
    ["i086", "6502", "6502x", "6502X", "65c02", "65C02", "spc700", "spc"]),
   (other 32,
    ["armeb", "arm", "aarch64_32", "arm64_32", "powerpc", "powerpcspe", "ppc", "ppc32", "mips",
     "mipseb", "mipsallegrex", "mipsisa32r6", "mipsr6", "mipsel", "mipsallegrexel",
     "mipsisa32r6el", "mipsr6el", "sparc", "sparcel", "riscv32", "wc65c816", "65816", "w65c816",
     "65c816", "w65", "wasm32", "holeybytes", "hbvm", "hb"]),
   (other 64,
    ["aarch64", "arm64", "arm64e", "aarch64_be", "arm64_be", "powerpc64", "ppu", "ppc64",
     "powerpc64le", "ppc64le", "mips64", "mips64eb", "mipsn32", "mipsisa64r6", "mips64r6",
     "mipsn32r6", "mips64el", "mipsn32el", "mipsisa64r6el", "mips64r6el", "mipsn32r6el", "sparcv9",
     "sparc64", "riscv64", "wasm64"])]

end Architecture

namespace Triple

/-- Whether `field` starts with one of `leads`. -/
def startsWithAny (field : String) (leads : List String) : Bool :=
  leads.any fun lead => lead.toList.isPrefixOf field.toList

def endsWithAny (field : String) (tails : List String) : Bool :=
  tails.any fun tail => tail.toList.isSuffixOf field.toList

def architecture? (field : String) : Option Architecture :=
  match Architecture.spellings.find? (·.2.contains field) with
  | some (architecture, _) => some architecture
  | none => if startsWithAny field ["clever"] then some (.other 32) else none

def vendors : List String :=
  ["unknown", "apple", "pc", "scei", "fsl", "img", "ibm", "mti", "nvidia", "csr", "myriad", "amd",
   "mesa", "suse", "oe", "wdc"]

inductive System where
  | windows
  | apple
  | other
  deriving DecidableEq, Repr

def otherSystems : List String :=
  ["ananas", "cloudabi", "dragonfly", "freebsd", "fuchsia", "kfreebsd", "linux", "lv2", "netbsd",
   "openbsd", "solaris", "zos", "haiku", "minix", "rtems", "nacl", "aix", "cuda", "nvcl", "amdhsa",
   "ps4", "elfiamcu", "mesa3d", "contiki", "amdpal", "hermit", "hurd", "wasi", "emscripten",
   "phantom", "snes", "nes", "cleveros", "ableos", "lilium"]

def system? (field : String) : Option System :=
  if startsWithAny field ["win32", "windows"] then some .windows
  else if startsWithAny field ["darwin", "ios", "macos", "tvos", "watchos"] then some .apple
  else if startsWithAny field otherSystems || field == "none" then some .other
  else none

def isEnvironment (field : String) : Bool :=
  startsWithAny field
    ["eabi", "gnu", "code16", "android", "musl", "msvc", "itanium", "cygnus", "coreclr",
     "simulator", "macabi", "pcore", "pkrnl", "std", "kernel"]

def isFormat (field : String) : Bool :=
  endsWithAny field ["coff", "elf", "goff", "macho", "wasm", "o65", "wlaobj", "wla"]

/-- What the fields after the architecture say. -/
structure Platform where
  system : Option System
  /-- 32-bit pointers on a 64-bit x86. -/
  isX32 : Bool
  isMachO : Bool
  deriving DecidableEq, Repr

/-- The platform whose environment or object format is `field`. -/
def environment? (system : Option System) (field : String) : Option Platform :=
  if isEnvironment field || isFormat field then
    some { system, isX32 := startsWithAny field ["gnux32"], isMachO := endsWithAny field ["macho"] }
  else none

/-- The platform of a single field, which is a system before it is anything else. -/
def platform? (field : String) : Option Platform :=
  match system? field with
  | some system => some { system := some system, isX32 := false, isMachO := false }
  | none => environment? none field

/-- The platform of the fields after the architecture. A known vendor is skipped; of four fields and
more the first is a vendor in any case, and only the next two count. -/
def platformOf? : List String → Option Platform
  | [] => none
  | [field] => platform? field
  | [first, second] =>
    if vendors.contains first then platform? second
    else do environment? (some (← system? first)) second
  | _ :: second :: third :: _ => do environment? (some (← system? second)) third

end Triple

namespace Target

def ofPlatform (architecture : Architecture) (platform : Triple.Platform) : Target :=
  let isWindows := platform.system == some .windows
  let isApple := platform.isMachO || platform.system == some .apple
  let pointerBits := match architecture with
    | .x86 bits | .other bits => bits
    | .x86_64 => if platform.isX32 then 32 else 64
  let isOther := match architecture with
    | .other _ => true
    | _ => false
  let (realSize, realPadding) :=
    if isWindows || (isApple && isOther) then (8, 0)
    else if isOther then (if pointerBits = 64 then (16, 0) else (8, 0))
    else if pointerBits = 64 then (16, 6)
    else (12, 2)
  { abi := if !isWindows then .itanium
      else .microsoft (if pointerBits = 64 then .modern else .legacy)
    pointerBits
    longBits := if isWindows || pointerBits < 32 then 32 else pointerBits
    realSize
    realPadding
    machO := isApple }

def ofTriple (triple : String) : Except Refusal Target :=
  let found := match triple.splitOn "-" with
    | [] => none
    | first :: rest => do
      return ofPlatform (← Triple.architecture? first) (← Triple.platformOf? rest)
  match found with
  | some target => .ok target
  | none => .error (.unknownTarget triple)

end Target

end LinkName
