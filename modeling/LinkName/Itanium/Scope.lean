import LinkName.Itanium.Encoding

/-!
Names and the scopes before them. A specialization names its template and lists its arguments; where
the template is known already, its scope is known with it and is left out.
-/
namespace LinkName.Itanium

variable {handles : Option Nat} {graph : Graph}
variable (parts : Encoding graph handles)

/-- The arguments of the specialization `owner`; only the last may be a pack. -/
def arguments (owner : SymbolId) : List TemplateArg → LimitedEncoder handles graph (List Token)
  | [] => return []
  | [.pack args] => do
    return [.text "I"] ++ (← Encoder.concat (parts.argument owner) args) ++ [.text "E"]
  | .pack args :: _ :: _ => Encoder.refuseArgument owner (.pack args) .packNotLast
  | first :: rest => return (← parts.argument owner first) ++ (← arguments owner rest)

/-- The name of a symbol without its scope. A specialization names its template and lists its
arguments. -/
def sourceName (id : SymbolId) : LimitedEncoder handles graph (List Token) := do
  let symbol ← Encoder.symbol id
  match symbol.sort with
  | .specialization template args =>
    let general ← orBackRef (.symbol template)
      (storeThen (.symbol template) (pure [.source symbol.ident]))
    return general ++ [.text "I"] ++ (← arguments parts id args) ++ [.text "E"]
  | _ => return [.source symbol.ident]

/-- A known template implies its scope. -/
def impliesScope (level : Level) : LimitedEncoder handles graph Bool :=
  match level.template with
  | some template => isKnown (.symbol template)
  | none => pure false

/-- The scope of a level, unless it is implied. -/
def enclosing (level : Level) (scope : SymbolId) : LimitedEncoder handles graph (List Token) := do
  if ← impliesScope level then pure [] else parts.scope scope

/-- A scope as the qualifier of a longer name. -/
def scopeName (id : SymbolId) : LimitedEncoder handles graph (List Token) :=
  orBackRef (.symbol id) <| storeThen (.symbol id) do
    let level ← Encoder.ofExcept (graph.level id)
    match level.scope with
    | some scope => return (← enclosing parts level scope) ++ (← sourceName parts level.name)
    | none => sourceName parts level.name

/-- The complete name of what a type or an alias names. -/
def qualifiedName (id : SymbolId) : LimitedEncoder handles graph (List Token) := do
  let level ← Encoder.ofExcept (graph.level id)
  match level.scope with
  | some scope =>
    return [.text "N"] ++ (← enclosing parts level scope) ++ (← sourceName parts level.name) ++
      [.text "E"]
  | none => sourceName parts level.name

/-- The name of a record, an enumeration or a template, written in full only once. -/
def mention (id : SymbolId) : LimitedEncoder handles graph (List Token) :=
  orBackRef (.symbol id) (thenStore (.symbol id) (qualifiedName parts id))

end LinkName.Itanium
