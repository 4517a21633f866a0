import LinkName.Itanium.Name
import LinkName.Microsoft.Name
import LinkName.Target.Triple

/-!
The name of a declaration for a target. A variable or a function either has exactly one name or is
refused as a whole.
-/
namespace LinkName

namespace Itanium

/-- The Itanium name of `id`, whichever family the target uses. -/
def nameFor (graph : Graph) (target : Target) (id : SymbolId) : Except Refusal String :=
  name graph target id

/-- The same with handles and sequence numbers of 32 bits. -/
def nameFor32 (graph : Graph) (target : Target) (id : SymbolId) : Except Refusal String :=
  name graph target id (some UInt32.size)

end Itanium

namespace Microsoft

/-- The Microsoft name of `id`, whichever family the target uses. -/
def nameFor (graph : Graph) (target : Target) (id : SymbolId) : Except Refusal String :=
  name graph target id

/-- The same with handles of 32 bits. -/
def nameFor32 (graph : Graph) (target : Target) (id : SymbolId) : Except Refusal String :=
  name graph target id (some UInt32.size)

end Microsoft

namespace Graph

def nameFor (graph : Graph) (target : Target) (id : SymbolId) : Except Refusal String :=
  match target.abi with
  | .itanium => Itanium.nameFor graph target id
  | .microsoft _ => Microsoft.nameFor graph target id

def nameForTriple (graph : Graph) (triple : String) (id : SymbolId) : Except Refusal String := do
  graph.nameFor (← Target.ofTriple triple) id

end Graph

end LinkName
