import LinkName.Proofs.Graph.Embedding
import LinkName.Proofs.Type.Resolution

/-!
Graphs without classes. A graph is resolved by another one that has the same symbols and, for every
class type, a pointer to the record of the class. The trees of its types are resolved with it.
-/
namespace LinkName

/-- The relabeling that moves types only. -/
def Relabeling.ofTypes (types : TypeId → TypeId) : Relabeling where
  symbol id := id
  type := types

namespace Graph

/-- A class type of the graph. -/
def HasClass (graph : Graph) (symbol : SymbolId) (quals : Qualifiers) : Prop :=
  ∃ id, graph.type id = .ok { form := .classRef symbol, quals }

/-- No symbol is named both as a class and as a record. -/
def ClassesApart (graph : Graph) : Prop :=
  ∀ id symbol quals, graph.type id = .ok { form := .record symbol, quals } →
    ∀ quals', ¬ graph.HasClass symbol quals'

/-- The second graph has a pointer to a record for every class of the first, and everything else
that the first has. -/
structure Resolves (graph graph' : Graph) (types : TypeId → TypeId) : Prop where
  symbols : graph.CarriesSymbols graph' (.ofTypes types)
  type : ∀ id node, graph.type id = .ok node → (∀ symbol, node.form ≠ .classRef symbol) →
    graph'.type (types id) = .ok (node.relabel (.ofTypes types))
  classRef : ∀ id symbol quals, graph.type id = .ok { form := .classRef symbol, quals } →
    ∃ target, graph'.type (types id) = .ok { form := .pointer target, quals } ∧
      graph'.type target = .ok { form := .record symbol, quals }

end Graph

theorem TypeNode.tree_resolved {types : TypeId → TypeId} {node : TypeNode}
    {part part' : TypeId → TypeTree} (other : ∀ symbol, node.form ≠ .classRef symbol)
    (parts : ∀ id ∈ node.form.parts, part' (types id) = (part id).resolved) :
    (node.relabel (.ofTypes types)).tree part' = (node.tree part).resolved := by
  rcases node with ⟨form, quals⟩
  cases form with
  | basic | record | enumeration | typedef => rfl
  | classRef symbol => exact absurd rfl (other symbol)
  | function signature =>
      have result := parts signature.result List.mem_cons_self
      have params : signature.params.map (fun param =>
            (param.passing, part' (types param.type))) =
          signature.params.map fun param => (param.passing, (part param.type).resolved) :=
        List.map_congr_left fun param listed => by
          rw [parts param.type (List.mem_cons_of_mem _ (List.mem_map_of_mem listed))]
      simp only [relabel, TypeForm.relabel, tree, Signature.relabel, TypeTree.resolved_function,
        List.map_map, Function.comp_def, Param.relabel, Relabeling.ofTypes, result, params]
      rfl
  | assocArray key value =>
      simp only [relabel, TypeForm.relabel, tree, TypeTree.resolved_assocArray, Relabeling.ofTypes,
        parts key (by simp [TypeForm.parts]), parts value (by simp [TypeForm.parts])]
  | _ => simp only [relabel, TypeForm.relabel, tree, TypeTree.resolved_layer, Relabeling.ofTypes,
      parts _ List.mem_cons_self]

namespace Graph

variable {graph graph' : Graph} {types : TypeId → TypeId} {id : TypeId}

theorem Resolves.tree (resolves : graph.Resolves graph' types) (formed : graph.WellFormed)
    (formed' : graph'.WellFormed) (held : graph.Holds (.type id)) :
    graph'.tree (types id) = (graph.tree id).resolved := by
  refine formed.type_induction (motive := fun id =>
    graph'.tree (types id) = (graph.tree id).resolved) ?_ held
  intro id node found _ _ ih
  rw [formed.tree_eq found]
  by_cases named : ∃ symbol, node.form = .classRef symbol
  · obtain ⟨symbol, form⟩ := named
    rcases node with ⟨_, quals⟩
    obtain rfl : _ = TypeForm.classRef symbol := form
    obtain ⟨target, pointer, record⟩ := resolves.classRef id symbol quals found
    rw [formed'.tree_eq pointer]
    exact congrArg (TypeTree.layer .pointer · quals) (formed'.tree_eq record)
  · have other : ∀ symbol, node.form ≠ .classRef symbol := fun symbol form => named ⟨symbol, form⟩
    rw [formed'.tree_eq (resolves.type id node found other), TypeNode.tree_resolved other ih]

theorem Resolves.scopeParent (resolves : graph.Resolves graph' types) {symbol : SymbolId}
    {scope : Option SymbolId} (found : graph.scopeParent symbol = .ok scope) :
    graph'.scopeParent symbol = .ok scope := by
  have carried := resolves.symbols.scopeParent found
  cases scope <;> exact carried

theorem Resolves.level (resolves : graph.Resolves graph' types) {symbol : SymbolId} {level : Level}
    (found : graph.level symbol = .ok level) : graph'.level symbol = .ok level := by
  have carried := resolves.symbols.level found
  rcases level with ⟨name, scope, template⟩
  cases scope <;> cases template <;> exact carried

theorem Resolves.holds_symbol (resolves : graph.Resolves graph' types) {symbol : SymbolId}
    (held : graph.Holds (.symbol symbol)) : graph'.Holds (.symbol symbol) := by
  obtain ⟨found, stored⟩ := holds_symbol_iff.mp held
  exact holds_symbol_iff.mpr ⟨_, resolves.symbols symbol found stored⟩

theorem Resolves.holds_type (resolves : graph.Resolves graph' types)
    (held : graph.Holds (.type id)) : graph'.Holds (.type (types id)) := by
  obtain ⟨⟨form, quals⟩, found⟩ := holds_type_iff.mp held
  by_cases named : ∃ symbol, form = .classRef symbol
  · obtain ⟨symbol, rfl⟩ := named
    obtain ⟨target, pointer, -⟩ := resolves.classRef id symbol quals found
    exact holds_type_iff.mpr ⟨_, pointer⟩
  · exact holds_type_iff.mpr
      ⟨_, resolves.type id _ found fun symbol form => named ⟨symbol, form⟩⟩

theorem Resolves.holdsArg (resolves : graph.Resolves graph' types) {arg : TemplateArg}
    (held : graph.HoldsArg arg) : graph'.HoldsArg (arg.relabel (.ofTypes types)) := by
  rintro entity named
  cases arg with
  | type type | typeAlias type | value type _ =>
      cases named
      exact resolves.holds_type (held (.type type) rfl)
  | symbolAlias symbol =>
      cases named
      exact resolves.holds_symbol (held (.symbol symbol) rfl)
  | pack => cases named

theorem ClassesApart.tree (apart : graph.ClassesApart) (formed : graph.WellFormed)
    (held : graph.Holds (.type id)) : (graph.tree id).Apart graph.HasClass := by
  refine formed.type_induction (motive := fun id => (graph.tree id).Apart graph.HasClass) ?_ held
  intro id node found _ _ ih
  rw [formed.tree_eq found]
  rcases node with ⟨form, quals⟩
  cases form with
  | basic => trivial
  | typedef | enumeration => exact ⟨nofun, nofun⟩
  | record symbol => exact ⟨fun _ => apart id symbol quals found, nofun⟩
  | classRef symbol => exact ⟨nofun, fun _ => ⟨id, found⟩⟩
  | assocArray key value =>
      exact ⟨ih key (by simp [TypeForm.parts]), ih value (by simp [TypeForm.parts])⟩
  | function signature =>
      refine TypeTree.apart_function.mpr ⟨ih _ List.mem_cons_self, fun param listed => ?_⟩
      obtain ⟨original, known, rfl⟩ := List.mem_map.mp listed
      exact ih _ (List.mem_cons_of_mem _ (List.mem_map_of_mem known))
  | _ => exact ih _ List.mem_cons_self

end Graph

end LinkName
