import LinkName.Microsoft.Declaration

/-!
Microsoft names: the encodings of nested parts, and the name of a declaration as a whole.
-/
namespace LinkName.Microsoft

variable {handles : Option Nat} {graph : Graph}

/-- How the parts of a name are written when they are nested at most `depth` deep. -/
def encoding (machine : Target) : Nat → Encoding graph handles
  | 0 =>
    { scope := fun _ => throw (.malformed .endless)
      argument := fun _ _ => throw (.malformed .endless)
      type := fun _ _ => throw (.malformed .endless) }
  | depth + 1 =>
    let parts := encoding machine depth
    { scope := levelNames machine parts true
      argument := argument machine parts
      type := type machine parts }

/-- The tokens of the name of a variable or a function. -/
def encode (machine : Target) (id : SymbolId) : LimitedEncoder handles graph (List Token) := do
  let parts := encoding machine (Encoder.depthBound graph)
  match (← Encoder.symbol id).sort with
  | .var _ => variableName machine parts id
  | .function _ => functionName machine parts id
  | _ => Encoder.refuseSymbol id

/-- The name of `id`, or why it has none, with as many handles and sequence numbers as there are. -/
def name (graph : Graph) (machine : Target) (id : SymbolId) (handles : Option Nat := none) :
    Except Refusal String := do
  let tokens ← Encoder.outcome (encode machine id : LimitedEncoder handles graph (List Token))
    (Tables.bounded 10)
  return String.ofList (Token.write tokens)

end LinkName.Microsoft
