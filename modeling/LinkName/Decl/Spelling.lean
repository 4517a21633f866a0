import LinkName.Decl.Overlay

/-!
How diagnostics spell symbols and types. A symbol is its dotted path; a member of a specialization
that carries the name of its template is spelled as the specialization. A type is spelled around its
parts, with its qualifiers outermost.
-/
namespace LinkName

/-- The spelling of whatever lies inside a symbol or a type. -/
structure Speller where
  type : TypeId → Except Fault String
  symbol : SymbolId → Except Fault String

namespace Speller

variable (inner : Speller)

def param (param : Param) : Except Fault String := do
  let text ← inner.type param.type
  return match param.passing with
    | .value => text
    | .ref => "ref " ++ text
    | .out => "out " ++ text
    | .lazy => "lazy " ++ text

def signature (keyword : String) (signature : Signature) : Except Fault String := do
  let result ← inner.type signature.result
  let params ← signature.params.mapM inner.param
  let ellipsis := if signature.variadic then ["..."] else []
  let result := if signature.refResult then "ref " ++ result else result
  return result ++ " " ++ keyword ++ "(" ++ ", ".intercalate (params ++ ellipsis) ++ ")"

/-- A template argument; a pack as a whole is only hinted at. -/
def argument : TemplateArg → Except Fault String
  | .type type | .typeAlias type => inner.type type
  | .value _ number => return toString number
  | .symbolAlias symbol => inner.symbol symbol
  | .pack _ => return "..."

mutual

/-- An argument behind `separator`, and the separator for what follows it. What a pack holds stands in
its place, so the separator is handed on through the pack. -/
def argumentAfter (separator : String) : TemplateArg → Except Fault (String × String)
  | .pack args => argumentsAfter separator args
  | arg => do
    let text ← inner.argument arg
    return (separator ++ text, ", ")

/-- The arguments, the first behind `separator`. -/
def argumentsAfter (separator : String) : List TemplateArg → Except Fault (String × String)
  | [] => return ("", separator)
  | first :: rest => do
    let (text, separator) ← argumentAfter separator first
    let (others, separator) ← argumentsAfter separator rest
    return (text ++ others, separator)

end

end Speller

namespace Qualifiers

def wrap (quals : Qualifiers) (text : String) : String :=
  let text := if quals.isConst then "const(" ++ text ++ ")" else text
  let text := if quals.isShared then "shared(" ++ text ++ ")" else text
  if quals.isImmutable then "immutable(" ++ text ++ ")" else text

end Qualifiers

namespace Overlay

variable {graph : Graph} (overlay : Overlay graph) (inner : Speller)

def spellForm : TypeForm → Except Fault String
  | .basic basic => return basic.spelling
  | .pointer target => return (← inner.type target) ++ "*"
  | .reference target => return "ref " ++ (← inner.type target)
  | .staticArray dim element => return (← inner.type element) ++ "[" ++ toString dim ++ "]"
  | .vector element => return "__vector(" ++ (← inner.type element) ++ ")"
  | .function signature => inner.signature "function" signature
  | .record symbol | .enumeration symbol _ | .classRef symbol | .typedef symbol =>
    inner.symbol symbol
  | .dynamicArray element => return (← inner.type element) ++ "[]"
  | .assocArray key value => return (← inner.type value) ++ "[" ++ (← inner.type key) ++ "]"
  | .delegate function => do
    match (← overlay.type function).form with
    | .function signature => inner.signature "delegate" signature
    | _ => return (← inner.type function) ++ " delegate"

def spellNode (id : TypeId) : Except Fault String := do
  let node ← overlay.type id
  return node.quals.wrap (← overlay.spellForm inner node.form)

end Overlay

namespace Graph

variable (graph : Graph) (inner : Speller)

/-- The last level of a path. -/
def spellName (symbol : Symbol) : Except Fault String :=
  match symbol.sort with
  | .specialization _ args => do
    let (text, _) ← inner.argumentsAfter "" args
    return symbol.ident ++ "!(" ++ text ++ ")"
  | _ => return symbol.ident

def spellPath (id : SymbolId) : Except Fault String := do
  let symbol ← graph.symbol id
  match symbol.parent with
  | none => spellName inner symbol
  | some parent =>
    let outer ← graph.symbol parent
    if outer.template?.isSome && outer.ident == symbol.ident then inner.symbol parent
    else return (← inner.symbol parent) ++ "." ++ (← spellName inner symbol)

end Graph

namespace Overlay

variable {graph : Graph}

def speller (overlay : Overlay graph) : Nat → Speller
  | 0 => { type := fun _ => .error .endless, symbol := fun _ => .error .endless }
  | fuel + 1 =>
    let inner := speller overlay fuel
    { type := overlay.spellNode inner, symbol := graph.spellPath inner }

def spellType (overlay : Overlay graph) (id : TypeId) : Except Fault String :=
  (overlay.speller overlay.reach).type id

def spellSymbol (overlay : Overlay graph) (id : SymbolId) : Except Fault String :=
  (overlay.speller overlay.reach).symbol id

def spellArgument (overlay : Overlay graph) (arg : TemplateArg) : Except Fault String :=
  (overlay.speller overlay.reach).argument arg

end Overlay

namespace Graph

def spellType (graph : Graph) (id : TypeId) : Except Fault String :=
  ({} : Overlay graph).spellType id

def spellSymbol (graph : Graph) (id : SymbolId) : Except Fault String :=
  ({} : Overlay graph).spellSymbol id

end Graph

/-! ## Separators -/

namespace Speller

variable (inner : Speller)

/-- The texts, the first behind `separator` and each other behind a comma, and the separator for what
follows them. -/
def joinAfter (separator : String) : List String → String × String
  | [] => ("", separator)
  | text :: rest => (separator ++ text ++ (joinAfter ", " rest).1, (joinAfter ", " rest).2)

theorem joinAfter_append (texts more : List String) (separator : String) :
    joinAfter separator (texts ++ more) =
      ((joinAfter separator texts).1 ++ (joinAfter (joinAfter separator texts).2 more).1,
        (joinAfter (joinAfter separator texts).2 more).2) := by
  induction texts generalizing separator with
  | nil => simp [joinAfter]
  | cons text rest ih => simp [joinAfter, ih, String.append_assoc]

theorem joinAfter_cons (separator text : String) (rest : List String) :
    (joinAfter separator (text :: rest)).1 = separator ++ ", ".intercalate (text :: rest) := by
  induction rest generalizing separator text with
  | nil => simp [joinAfter]
  | cons next rest ih =>
      rw [joinAfter, ih, String.intercalate_cons_cons]
      simp [String.append_assoc]

theorem joinAfter_empty (texts : List String) :
    (joinAfter "" texts).1 = ", ".intercalate texts := by
  cases texts with
  | nil => simp [joinAfter]
  | cons text rest => rw [joinAfter_cons, String.empty_append]

mutual

theorem argumentAfter_eq (separator : String) (arg : TemplateArg) :
    inner.argumentAfter separator arg = joinAfter separator <$> arg.leaves.mapM inner.argument := by
  cases arg with
  | pack args => exact argumentsAfter_eq separator args
  | type id | value id number | symbolAlias id | typeAlias id =>
      simp only [argumentAfter, TemplateArg.leaves, List.mapM_cons, List.mapM_nil]
      cases inner.argument _ with
      | error fault => rfl
      | ok text => simp [bind, Except.bind, pure, Except.pure, Functor.map, Except.map, joinAfter]

/-- Handing the separator on through the packs comes to joining what the packs hold. -/
theorem argumentsAfter_eq (separator : String) (args : List TemplateArg) :
    inner.argumentsAfter separator args =
      joinAfter separator <$> (TemplateArg.leavesOf args).mapM inner.argument := by
  cases args with
  | nil => simp [argumentsAfter, TemplateArg.leavesOf, joinAfter]
  | cons first rest =>
      rw [argumentsAfter, argumentAfter_eq separator first, TemplateArg.leavesOf, List.mapM_append]
      cases first.leaves.mapM inner.argument with
      | error fault => rfl
      | ok texts =>
          simp only [bind, Except.bind, argumentsAfter_eq _ rest, Functor.map, Except.map]
          cases (TemplateArg.leavesOf rest).mapM inner.argument with
          | error fault => rfl
          | ok more => simp [joinAfter_append, pure, Except.pure]

end

end Speller

theorem Graph.spellName_specialization (inner : Speller) (symbol : Symbol) {template : SymbolId}
    {args : List TemplateArg} (sort : symbol.sort = .specialization template args) :
    Graph.spellName inner symbol = (do
      let args ← (TemplateArg.leavesOf args).mapM inner.argument
      return symbol.ident ++ "!(" ++ ", ".intercalate args ++ ")") := by
  simp only [spellName, sort, Speller.argumentsAfter_eq]
  cases (TemplateArg.leavesOf args).mapM inner.argument with
  | error fault => rfl
  | ok texts => simp [bind, Except.bind, Functor.map, Except.map, Speller.joinAfter_empty]

end LinkName
