import LinkName.Microsoft.Code
import LinkName.Microsoft.Encoding

/-!
Qualified names, innermost level first. A level that has been recorded is written as a digit.
-/
namespace LinkName.Microsoft

variable {handles : Option Nat} {graph : Graph}
variable (machine : Target) (parts : Encoding graph handles)

/-- The arguments of the specialization `owner`; only the last may be a pack. -/
def arguments (owner : SymbolId) : List TemplateArg → LimitedEncoder handles graph (List Token)
  | [] => return []
  | [.pack args] => Encoder.concat (parts.argument owner) args
  | .pack args :: _ :: _ => Encoder.refuseArgument owner (.pack args) .packNotLast
  | first :: rest => return (← parts.argument owner first) ++ (← arguments owner rest)

/-- The scope that the legacy dialect repeats inside the name of a specialization. -/
def repeatedScope (symbol : Symbol) : LimitedEncoder handles graph (List Token) :=
  match symbol.parent with
  | some parent => if machine.isLegacy then parts.scope parent else pure []
  | none => pure []

/-- The name of a specialization and its arguments, without an end mark. -/
def specializationName (id : SymbolId) (symbol : Symbol) (args : List TemplateArg) :
    LimitedEncoder handles graph (List Token) := do
  return [.text "?$", .ident symbol.ident, .text "@"] ++ (← repeatedScope machine parts symbol) ++
    (← arguments parts id args)

/-- One level of a qualified name. The legacy dialect does not record specializations. -/
def levelName (spelledOut : Bool) (id : SymbolId) : LimitedEncoder handles graph (List Token) := do
  let symbol ← Encoder.symbol id
  match symbol.sort with
  | .specialization _ args =>
    let level ← specializationName machine parts id symbol args
    if machine.isLegacy then return level ++ [.text "@"] else orNameRef spelledOut level
  | .function { role := .destructor, .. } => return [.text "?1"]
  | _ => orNameRef spelledOut [.ident symbol.ident]

def levelNames (spelledOut : Bool) (id : SymbolId) : LimitedEncoder handles graph (List Token) := do
  Encoder.concat (levelName machine parts spelledOut) (← Encoder.ofExcept (graph.levels id))

/-- The qualified name of a symbol, innermost level first. -/
def qualifiedName (id : SymbolId) : LimitedEncoder handles graph (List Token) := do
  return (← levelNames machine parts false id) ++ [.text "@"]

end LinkName.Microsoft
