import LinkName.Proofs.Graph.Scope
import LinkName.Proofs.Itanium.Token
import LinkName.Proofs.Type.Normal
import LinkName.Proofs.Type.Weight

/-!
Graphs in which names say what they name. Symbols that a name can refer to have paths of their own,
types name a symbol in one way only, and no parameter could be taken for an empty parameter list.
-/
namespace LinkName

namespace Graph

variable {graph : Graph} {id : SymbolId}

/-! ## Paths -/

def pathWithin (graph : Graph) : Nat → SymbolId → List String
  | 0, _ => []
  | fuel + 1, id =>
    match graph.symbol id with
    | .error _ => []
    | .ok symbol =>
      match graph.scopeParent id with
      | .ok (some outer) => pathWithin graph fuel outer ++ [symbol.ident]
      | _ => [symbol.ident]

/-- The identifiers of a symbol and of what encloses it up to the module, outermost first. -/
def path (graph : Graph) (id : SymbolId) : List String := graph.pathWithin graph.symbols.length id

theorem WellFormed.pathWithin_eq (formed : graph.WellFormed) {fuel more : Nat}
    (held : graph.Holds (.symbol id)) (deep : (graph.above id).card < fuel)
    (deeper : (graph.above id).card < more) : graph.pathWithin fuel id = graph.pathWithin more id := by
  induction fuel generalizing more id with
  | zero => exact absurd deep (Nat.not_lt_zero _)
  | succ fuel ih =>
      cases more with
      | zero => exact absurd deeper (Nat.not_lt_zero _)
      | succ more =>
          obtain ⟨symbol, stored⟩ := holds_symbol_iff.mp held
          obtain ⟨scope, found⟩ := formed.scopeParent_eq_ok held
          simp only [pathWithin, stored, found]
          cases scope with
          | none => rfl
          | some outer =>
              have mentioned := mentions_scopeParent found
              have lower := formed.card_above_lt mentioned
              have outside : graph.pathWithin fuel outer = graph.pathWithin more outer :=
                ih (formed.closed _ _ mentioned) (by omega) (by omega)
              exact congrArg (· ++ [symbol.ident]) outside

theorem WellFormed.path_eq (formed : graph.WellFormed) {symbol : Symbol} {scope : Option SymbolId}
    (stored : graph.symbol id = .ok symbol) (found : graph.scopeParent id = .ok scope) :
    graph.path id = (scope.map graph.path).getD [] ++ [symbol.ident] := by
  have held : graph.Holds (.symbol id) := holds_symbol_iff.mpr ⟨symbol, stored⟩
  have enough := formed.card_above_le held
  rw [path, formed.pathWithin_eq held enough (Nat.lt_succ_of_lt enough)]
  simp only [pathWithin, stored, found]
  cases scope with
  | none => rfl
  | some outer => rfl

end Graph

/-! ## Conditions -/

/-- How a type names a symbol, if C++ has such types. -/
def TypeForm.naming? : TypeForm → Option (Naming × SymbolId)
  | .record symbol => some (.record, symbol)
  | .enumeration symbol base => some (.enumeration base, symbol)
  | .classRef symbol => some (.classRef, symbol)
  | _ => none

namespace Graph

/-- Some type of the graph names the symbol in the given way. -/
def Names (graph : Graph) (naming : Naming) (symbol : SymbolId) : Prop :=
  ∃ id node, graph.type id = .ok node ∧ node.form.naming? = some (naming, symbol)

/-- The symbol serves as a scope or is named by a type. -/
def Addressed (graph : Graph) (id : SymbolId) : Prop :=
  (∃ child, graph.scopeParent child = .ok (some id)) ∨ ∃ naming, graph.Names naming id

/-- No symbol is a specialization. -/
def SpecializationFree (graph : Graph) : Prop :=
  ∀ id symbol, graph.symbol id = .ok symbol → symbol.template? = none

/-- Identifiers are not empty and do not start with a digit. -/
def IdentsReadable (graph : Graph) : Prop :=
  ∀ id symbol, graph.symbol id = .ok symbol → Itanium.Readable symbol.ident

/-- Scopes and what types name have paths of their own. -/
def PathsDistinct (graph : Graph) : Prop :=
  ∀ id other, graph.Addressed id → graph.Addressed other → graph.path id = graph.path other →
    id = other

/-- A symbol that types name is named in one way only. -/
def NamedOneWay (graph : Graph) : Prop :=
  ∀ naming naming' symbol, graph.Names naming symbol → graph.Names naming' symbol → naming = naming'

/-- No parameter is passed by value as `void`. -/
def NoVoidParams (graph : Graph) : Prop :=
  ∀ id signature quals, graph.type id = .ok { form := .function signature, quals } →
    ∀ param ∈ signature.params, param.passing = .value →
      ∀ node, graph.type param.type = .ok node → node.form ≠ .basic .void

/-- Where overloads can be told apart by their names. -/
structure Telling (graph : Graph) : Prop where
  plain : graph.SpecializationFree
  idents : graph.IdentsReadable
  paths : graph.PathsDistinct
  namings : graph.NamedOneWay
  voids : graph.NoVoidParams

end Graph

/-! ## Types that keep the conditions -/

namespace TypeTree

def isVoid : TypeTree → Bool
  | .basic .void _ => true
  | _ => false

/-- The type names symbols only as types of the graph do, and no parameter in it is passed by value
as `void`. -/
inductive Told (graph : Graph) : TypeTree → Prop
  | basic (builtin : BasicType) (quals : Qualifiers) : Told graph (.basic builtin quals)
  | layer (around : Layer) {inner : TypeTree} (quals : Qualifiers) (told : Told graph inner) :
      Told graph (.layer around inner quals)
  | named {naming : Naming} {symbol : SymbolId} (quals : Qualifiers)
      (names : naming = .typedef ∨ graph.Names naming symbol) : Told graph (.named naming symbol quals)
  | assocArray {key value : TypeTree} (quals : Qualifiers) (told : Told graph key)
      (also : Told graph value) : Told graph (.assocArray key value quals)
  | function {result : TypeTree} {params : List (Passing × TypeTree)} (convention : Convention)
      (quals : Qualifiers) (told : Told graph result) (each : ∀ param ∈ params, Told graph param.2)
      (voids : ∀ param ∈ params, param.1 = .value → param.2.isVoid = false) :
      Told graph (.function result params convention quals)

namespace Told

variable {graph : Graph} {tree : TypeTree}

theorem withoutConst (told : Told graph tree) : Told graph tree.withoutConst := by
  unfold TypeTree.withoutConst
  split
  · cases told with
    | basic builtin quals => exact .basic builtin _
    | layer around quals told => exact .layer around _ told
    | named quals names => exact .named _ names
    | assocArray quals told also => exact .assocArray _ told also
    | function convention quals told each voids => exact .function convention _ told each voids
  · exact told

theorem passed {param : Passing × TypeTree} (told : Told graph param.2) :
    Told graph (passed param) := by
  rcases param with ⟨passing, type⟩
  cases passing with
  | value => exact told
  | ref | out => exact .layer .reference {} told
  | lazy => exact .layer .pointer {} (.function {} {} told (by simp) (by simp))

theorem returned (convention : Convention) (told : Told graph tree) :
    Told graph (returned convention tree) := by
  unfold TypeTree.returned
  split
  · exact .layer .reference {} told
  · exact told

theorem parameter {param : Passing × TypeTree} (told : Told graph param.2) :
    Told graph (parameter param) :=
  told.passed.withoutConst

end Told

/-- A parameter is written as `void` only if it is passed by value as `void`. -/
theorem isVoid_parameter {param : Passing × TypeTree}
    (value : param.1 = .value → param.2.isVoid = false) : (parameter param).isVoid = false := by
  have withoutConst (tree : TypeTree) : tree.withoutConst.isVoid = tree.isVoid := by
    unfold TypeTree.withoutConst
    split
    · cases tree with
      | basic builtin quals => cases builtin <;> rfl
      | _ => rfl
    · rfl
  rcases param with ⟨passing, type⟩
  rw [parameter, withoutConst]
  cases passing with
  | value => exact value rfl
  | _ => rfl

end TypeTree

theorem Graph.Telling.told_tree {graph : Graph} (telling : graph.Telling)
    (formed : graph.WellFormed) {id : TypeId} (held : graph.Holds (.type id)) :
    (graph.tree id).Told graph := by
  refine formed.type_induction (motive := fun id => (graph.tree id).Told graph) ?_ held
  intro id node found mentions _ ih
  rw [formed.tree_eq found]
  rcases node with ⟨form, quals⟩
  have names (naming : Naming) (symbol : SymbolId) (same : form.naming? = some (naming, symbol)) :
      graph.Names naming symbol := ⟨id, ⟨form, quals⟩, found, same⟩
  cases form with
  | basic builtin => exact .basic builtin quals
  | typedef symbol => exact .named quals (.inl rfl)
  | record symbol | enumeration symbol base | classRef symbol =>
      exact .named quals (.inr (names _ _ rfl))
  | assocArray key value =>
      exact .assocArray quals (ih key (by simp [TypeForm.parts])) (ih value (by simp [TypeForm.parts]))
  | function signature =>
      refine .function _ quals (ih _ List.mem_cons_self) ?_ ?_
      · intro param listed
        obtain ⟨original, known, rfl⟩ := List.mem_map.mp listed
        exact ih _ (List.mem_cons_of_mem _ (List.mem_map_of_mem known))
      · intro param listed value
        obtain ⟨original, known, rfl⟩ := List.mem_map.mp listed
        have heldPart := formed.closed _ _ (Graph.mentions_param found known)
        obtain ⟨⟨part, partQuals⟩, stored⟩ := Graph.holds_type_iff.mp heldPart
        have other := telling.voids id signature quals found original known value _ stored
        show (graph.tree original.type).isVoid = false
        rw [formed.tree_eq stored]
        cases part with
        | basic builtin => cases builtin <;> first | rfl | exact absurd rfl other
        | _ => rfl
  | _ => exact .layer _ quals (ih _ List.mem_cons_self)

end LinkName
