import LinkName.Proofs.Type.Relabeling
import LinkName.Proofs.Type.Unfolding

/-!
What a type names, and how much there is in it. The weight of a type is an upper bound on how deep
the parts of its name are nested; symbols weigh eight times their rank, which leaves room for the
types that are derived while a name is made.
-/
namespace LinkName

namespace TypeTree

/-- The symbols that a type names somewhere. -/
def symbols : TypeTree → List SymbolId :=
  fold
    { basic := fun _ _ => []
      layer := fun _ inner _ => inner
      named := fun _ symbol _ => [symbol]
      assocArray := fun key value _ => key ++ value
      function := fun result params _ _ => result ++ (params.map Prod.snd).flatten }

theorem mem_symbols_function {result : TypeTree} {params : List (Passing × TypeTree)}
    {convention : Convention} {quals : Qualifiers} {symbol : SymbolId} :
    symbol ∈ (function result params convention quals).symbols ↔
      symbol ∈ result.symbols ∨ ∃ param ∈ params, symbol ∈ param.2.symbols := by
  simp [symbols, fold_function]

theorem symbols_mutable (tree : TypeTree) : tree.mutable.symbols = tree.symbols := by
  cases tree <;> rfl

theorem symbols_withoutConst (tree : TypeTree) : tree.withoutConst.symbols = tree.symbols := by
  unfold withoutConst
  split
  · exact symbols_mutable tree
  · rfl

theorem symbols_passed (param : Passing × TypeTree) : (passed param).symbols = param.2.symbols := by
  rcases param with ⟨passing, type⟩
  cases passing
  case lazy =>
    have thunk : (function type [] {} {}).symbols = type.symbols := by
      simp [symbols, fold_function]
    exact thunk
  all_goals rfl

theorem symbols_returned (convention : Convention) (result : TypeTree) :
    (returned convention result).symbols = result.symbols := by
  unfold returned
  split <;> rfl

theorem symbols_shape (tree : TypeTree) : tree.shape.2.symbols = tree.symbols := by
  induction tree with
  | layer around inner quals ih =>
      cases around
      case staticArray => exact ih
      all_goals rfl
  | _ => rfl

/-- A type in which no symbol changes is the same. -/
theorem relabel_eq_self {label : SymbolId → SymbolId} {tree : TypeTree}
    (fixed : ∀ symbol ∈ tree.symbols, label symbol = symbol) : tree.relabel label = tree := by
  induction tree with
  | basic builtin quals => rfl
  | layer around inner quals ih => rw [relabel_layer, ih fixed]
  | named naming symbol quals => rw [relabel_named, fixed symbol List.mem_cons_self]
  | assocArray key value quals ih ih' =>
      rw [relabel_assocArray, ih fun symbol listed => fixed symbol (List.mem_append_left _ listed),
        ih' fun symbol listed => fixed symbol (List.mem_append_right _ listed)]
  | function result params convention quals ih ihs =>
      have same : params.map (fun param => (param.1, param.2.relabel label)) = params := by
        refine (List.map_congr_left fun param listed => ?_).trans params.map_id'
        rw [ihs param listed fun symbol named =>
          fixed symbol (mem_symbols_function.mpr (.inr ⟨param, listed, named⟩))]
      rw [relabel_function, same,
        ih fun symbol named => fixed symbol (mem_symbols_function.mpr (.inl named))]

def weight (rank : SymbolId → Nat) : TypeTree → Nat :=
  fold
    { basic := fun _ _ => 0
      layer := fun _ inner _ => inner + 1
      named := fun _ symbol _ => 8 * rank symbol
      assocArray := fun key value _ => max key value
      function := fun result params _ _ =>
        params.foldr (fun param heaviest => max (param.2 + 4) heaviest) (result + 2) }

variable {rank : SymbolId → Nat}

@[simp] theorem weight_layer (around : Layer) (inner : TypeTree) (quals : Qualifiers) :
    (layer around inner quals).weight rank = inner.weight rank + 1 := rfl

@[simp] theorem weight_named (naming : Naming) (symbol : SymbolId) (quals : Qualifiers) :
    (named naming symbol quals).weight rank = 8 * rank symbol := rfl

theorem weight_function_le {result : TypeTree} {params : List (Passing × TypeTree)}
    {convention : Convention} {quals : Qualifiers} {bound : Nat} :
    (function result params convention quals).weight rank ≤ bound ↔
      result.weight rank + 2 ≤ bound ∧ ∀ param ∈ params, param.2.weight rank + 4 ≤ bound := by
  rw [weight, fold_function]
  induction params with
  | nil => simp
  | cons first rest ih =>
      simp only [List.map_cons, List.foldr_cons, Nat.max_le, ih, List.forall_mem_cons]
      exact and_left_comm

theorem weight_mutable (tree : TypeTree) : tree.mutable.weight rank = tree.weight rank := by
  cases tree
  case function =>
    simp only [mutable, requalified, weight, fold_function]
  all_goals rfl

theorem weight_withoutConst (tree : TypeTree) :
    tree.withoutConst.weight rank = tree.weight rank := by
  unfold withoutConst
  split
  · exact weight_mutable tree
  · rfl

theorem weight_passed_le (param : Passing × TypeTree) :
    (passed param).weight rank ≤ param.2.weight rank + 3 := by
  rcases param with ⟨passing, type⟩
  cases passing
  case value => exact Nat.le_add_right _ _
  case lazy => simp [passed, thunk, weight, fold, foldParams]
  all_goals exact Nat.add_le_add_left (by decide) _

theorem weight_returned_le (convention : Convention) (result : TypeTree) :
    (returned convention result).weight rank ≤ result.weight rank + 1 := by
  unfold returned
  split
  · exact le_rfl
  · exact Nat.le_succ _

theorem weight_shape_le (tree : TypeTree) : tree.shape.2.weight rank ≤ tree.weight rank := by
  induction tree with
  | layer around inner quals ih =>
      cases around
      case staticArray => exact ih.trans (Nat.le_succ _)
      all_goals exact le_rfl
  | _ => exact le_rfl

end TypeTree

/-! ## The types of a graph -/

namespace TypeNode

variable {node : TypeNode} {part : TypeId → TypeTree}

theorem mem_symbols_tree {symbol : SymbolId} :
    symbol ∈ (node.tree part).symbols ↔
      symbol ∈ node.form.symbol? ∨ ∃ id ∈ node.form.parts, symbol ∈ (part id).symbols := by
  rcases node with ⟨form, quals⟩
  cases form with
  | function signature =>
      rw [tree, TypeTree.mem_symbols_function]
      simp [TypeForm.symbol?, TypeForm.parts]
  | basic => simp [tree, TypeTree.symbols, TypeTree.fold, TypeForm.symbol?, TypeForm.parts]
  | assocArray key value =>
      simp [tree, TypeTree.symbols, TypeTree.fold, TypeForm.symbol?, TypeForm.parts]
  | record | enumeration | classRef | typedef =>
      simp [tree, TypeTree.symbols, TypeTree.fold, TypeForm.symbol?, TypeForm.parts, eq_comm]
  | _ => simp [tree, TypeTree.symbols, TypeTree.fold, TypeForm.symbol?, TypeForm.parts]

theorem weight_tree_le {rank : SymbolId → Nat} {bound : Nat}
    (symbols : ∀ symbol ∈ node.form.symbol?, 8 * rank symbol ≤ bound)
    (parts : ∀ id ∈ node.form.parts, (part id).weight rank + 4 ≤ bound) :
    (node.tree part).weight rank ≤ bound := by
  rcases node with ⟨form, quals⟩
  cases form with
  | function signature =>
      refine TypeTree.weight_function_le.mpr ⟨?_, ?_⟩
      · have result := parts signature.result List.mem_cons_self
        omega
      · intro param listed
        obtain ⟨original, known, rfl⟩ := List.mem_map.mp listed
        exact parts original.type (List.mem_cons_of_mem _ (List.mem_map_of_mem known))
  | basic => exact Nat.zero_le _
  | record symbol | enumeration symbol _ | classRef symbol | typedef symbol =>
      exact symbols symbol rfl
  | assocArray key value =>
      have key := parts key (by simp [TypeForm.parts])
      have value := parts value (by simp [TypeForm.parts])
      exact Nat.max_le.mpr ⟨(Nat.le_add_right _ 4).trans key, (Nat.le_add_right _ 4).trans value⟩
  | _ =>
      have inner := parts _ List.mem_cons_self
      simp only [tree, TypeTree.weight_layer]
      omega

end TypeNode

namespace Graph

variable {graph : Graph}

theorem WellFormed.tree_eq (formed : graph.WellFormed) {id : TypeId} {node : TypeNode}
    (found : graph.type id = .ok node) : graph.tree id = node.tree graph.tree := by
  have unfolds := formed.unfolds_tree (holds_type_iff.mpr ⟨node, found⟩) {}
  refine unfolds.unique (.node (Overlay.type_of_graph found) fun other listed => ?_)
  refine formed.unfolds_tree (formed.closed (.type id) _ ?_) {}
  rw [mentions_type found]
  exact List.mem_append_left _ (List.mem_map_of_mem listed)

/-- Types of a graph are understood from their parts. -/
theorem WellFormed.type_induction (formed : graph.WellFormed) {motive : TypeId → Prop}
    (node : ∀ id node, graph.type id = .ok node →
      (∀ part ∈ node.form.parts, graph.Mentions (.type id) (.type part)) →
      (∀ symbol ∈ node.form.symbol?, graph.Mentions (.type id) (.symbol symbol)) →
      (∀ part ∈ node.form.parts, motive part) → motive id)
    {id : TypeId} (held : graph.Holds (.type id)) : motive id := by
  have order := formed.order
  induction deep : order.rank (.type id) using Nat.strong_induction_on generalizing id with
  | _ rank ih =>
      obtain ⟨found, stored⟩ := holds_type_iff.mp held
      have parts : ∀ part ∈ found.form.parts, graph.Mentions (.type id) (.type part) := by
        intro part listed
        rw [Mentions, mentions_type stored]
        exact List.mem_append_left _ (List.mem_map_of_mem listed)
      refine node id found stored parts ?_ fun part listed => ?_
      · intro symbol named
        rw [Mentions, mentions_type stored]
        exact List.mem_append_right _ (by simpa using named)
      · have mentioned := parts part listed
        exact ih _ (deep ▸ order.descends _ _ mentioned) (formed.closed _ _ mentioned) rfl

theorem WellFormed.weight_tree_le (formed : graph.WellFormed) (order : graph.Order) {id : TypeId}
    (held : graph.Holds (.type id)) :
    (graph.tree id).weight (fun symbol => order.rank (.symbol symbol)) ≤
      8 * order.rank (.type id) := by
  refine formed.type_induction (motive := fun id =>
    (graph.tree id).weight (fun symbol => order.rank (.symbol symbol)) ≤
      8 * order.rank (.type id)) ?_ held
  intro id node found parts symbols ih
  rw [formed.tree_eq found]
  refine TypeNode.weight_tree_le ?_ ?_
  · intro symbol named
    have lower := order.descends _ _ (symbols symbol named)
    omega
  · intro part listed
    have lower := order.descends _ _ (parts part listed)
    have inside := ih part listed
    omega

theorem WellFormed.reaches_symbols (formed : graph.WellFormed) {id : TypeId}
    (held : graph.Holds (.type id)) :
    ∀ symbol ∈ (graph.tree id).symbols,
      Relation.TransGen graph.Mentions (.type id) (.symbol symbol) := by
  refine formed.type_induction (motive := fun id => ∀ symbol ∈ (graph.tree id).symbols,
    Relation.TransGen graph.Mentions (.type id) (.symbol symbol)) ?_ held
  intro id node found parts symbols ih symbol listed
  rw [formed.tree_eq found, TypeNode.mem_symbols_tree] at listed
  rcases listed with named | ⟨part, inside, listed⟩
  · exact .single (symbols symbol named)
  · exact .head (parts part inside) (ih part inside symbol listed)

theorem WellFormed.holds_symbols (formed : graph.WellFormed) {id : TypeId}
    (held : graph.Holds (.type id)) :
    ∀ symbol ∈ (graph.tree id).symbols, graph.Holds (.symbol symbol) := by
  intro symbol listed
  obtain ⟨entity, -, mentioned⟩ :=
    Relation.TransGen.tail'_iff.mp (formed.reaches_symbols held symbol listed)
  exact formed.closed _ _ mentioned

theorem mentions_param {id : TypeId} {signature : Signature} {quals : Qualifiers}
    (found : graph.type id = .ok ⟨.function signature, quals⟩) {param : Param}
    (listed : param ∈ signature.params) : graph.Mentions (.type id) (.type param.type) := by
  rw [Mentions, mentions_type found]
  exact List.mem_append_left _
    (List.mem_map_of_mem (List.mem_cons_of_mem _ (List.mem_map_of_mem listed)))

end Graph

end LinkName
