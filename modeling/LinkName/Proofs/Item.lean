import LinkName.Proofs.Graph.Embedding

/-!
The items that names are made of: scopes, arguments and types. Every item has a need, and the parts
of an item have less, so that nothing about names has to go round in circles.
-/
namespace LinkName

/-- What an encoding writes, with types as trees. The place of a type belongs to one family. -/
inductive Item (π : Type) where
  | scope (id : SymbolId)
  | argument (owner : SymbolId) (arg : TemplateArg)
  | type (tree : TypeTree) (place : π)

namespace Item

variable {π : Type}

/-- Whether the graph holds everything that the item names. -/
def Held (graph : Graph) : Item π → Prop
  | .scope id => graph.Holds (.symbol id)
  | .argument owner arg => graph.Holds (.symbol owner) ∧ graph.HoldsArg arg
  | .type tree _ => ∀ symbol ∈ tree.symbols, graph.Holds (.symbol symbol)

variable {graph : Graph}

def need (order : graph.Order) : Item π → Nat
  | .scope id => 8 * order.rank (.symbol id)
  | .argument _ arg => (arg.named?.map fun entity => 8 * order.rank entity + 1).getD 0
  | .type tree _ => tree.weight fun symbol => order.rank (.symbol symbol)

theorem need_scope (order : graph.Order) (id : SymbolId) :
    (scope id : Item π).need order = 8 * order.rank (.symbol id) := rfl

/-- What a list of arguments is made of; a pack counts as what it holds. -/
def ofArguments (owner : SymbolId) : List TemplateArg → List (Item π)
  | [] => []
  | .pack inner :: rest => inner.map (.argument owner) ++ ofArguments owner rest
  | first :: rest => .argument owner first :: ofArguments owner rest

/-- What the name of a symbol without its scope is made of. -/
def ofName (graph : Graph) (id : SymbolId) : List (Item π) :=
  match graph.symbol id with
  | .ok { sort := .specialization _ args, .. } => ofArguments id args
  | _ => []

theorem eq_argument_of_mem {owner : SymbolId} {args : List TemplateArg} {part : Item π}
    (listed : part ∈ (ofArguments owner args : List (Item π))) : ∃ arg, part = .argument owner arg := by
  induction args with
  | nil => cases listed
  | cons first rest ih =>
      cases first with
      | pack inner =>
          rcases List.mem_append.mp listed with packed | listed
          · obtain ⟨arg, -, rfl⟩ := List.mem_map.mp packed
            exact ⟨arg, rfl⟩
          · exact ih listed
      | _ => exact (List.mem_cons.mp listed).elim (fun same => ⟨_, same⟩) ih

/-- Parts that are held and need less than `bound`. -/
def Below (order : graph.Order) (bound : Nat) (parts : List (Item π)) : Prop :=
  ∀ part ∈ parts, part.Held graph ∧ part.need order < bound

namespace Below

variable {order : graph.Order} {bound more : Nat} {parts others : List (Item π)}

theorem nil : Below order bound ([] : List (Item π)) := by simp [Below]

theorem append (below : Below order bound parts) (also : Below order bound others) :
    Below order bound (parts ++ others) :=
  fun part listed => (List.mem_append.mp listed).elim (below part) (also part)

theorem mono (below : Below order bound parts) (enough : bound ≤ more) : Below order more parts :=
  fun part listed => ⟨(below part listed).1, (below part listed).2.trans_le enough⟩

theorem scope (formed : graph.WellFormed) {entity : Entity} {outer : SymbolId}
    (mentioned : graph.Mentions entity (.symbol outer)) (enough : 8 * order.rank entity ≤ bound) :
    Below order bound [(.scope outer : Item π)] := by
  have lower := order.descends _ _ mentioned
  exact List.forall_mem_singleton.mpr ⟨formed.closed _ _ mentioned, by rw [need_scope]; omega⟩

theorem scope? (formed : graph.WellFormed) {id : SymbolId} {scope : Option SymbolId}
    (found : graph.scopeParent id = .ok scope)
    (enough : 8 * order.rank (.symbol id) ≤ bound) :
    Below order bound (scope.toList.map (.scope : SymbolId → Item π)) := by
  cases scope with
  | none => exact nil
  | some outer => exact .scope formed (Graph.mentions_scopeParent found) enough

theorem argument {owner : SymbolId} (held : graph.Holds (.symbol owner)) (formed : graph.WellFormed)
    (positive : 0 < order.rank (.symbol owner)) {arg : TemplateArg}
    (named : ∀ entity ∈ arg.named?, graph.Mentions (.symbol owner) entity) :
    (Item.argument owner arg : Item π).Held graph ∧
      (Item.argument owner arg : Item π).need order < 8 * order.rank (.symbol owner) := by
  refine ⟨⟨held, fun entity listed => formed.closed _ _ (named entity listed)⟩, ?_⟩
  cases known : arg.named? with
  | none =>
      simp only [need, known, Option.map_none, Option.getD_none]
      omega
  | some entity =>
      have lower := order.descends _ _ (named entity known)
      simp only [need, known, Option.map_some, Option.getD_some]
      omega

theorem ofArguments {owner : SymbolId} (held : graph.Holds (.symbol owner))
    (formed : graph.WellFormed) (positive : 0 < order.rank (.symbol owner)) {args : List TemplateArg}
    (named : TemplateArg.Each (graph.Mentions (.symbol owner)) args) :
    Below order (8 * order.rank (.symbol owner)) (ofArguments owner args : List (Item π)) := by
  induction args with
  | nil => exact nil
  | cons first rest ih =>
      have tail := ih named.tail
      cases first with
      | pack inner =>
          refine append ?_ tail
          intro part listed
          obtain ⟨arg, known, rfl⟩ := List.mem_map.mp listed
          exact argument held formed positive (named.of_pack.of_mem known)
      | _ => exact List.forall_mem_cons.mpr ⟨argument held formed positive named.head, tail⟩

theorem ofName (formed : graph.WellFormed) (order : graph.Order) (id : SymbolId) :
    Below order (8 * order.rank (.symbol id)) (ofName graph id : List (Item π)) := by
  unfold Item.ofName
  split
  · next ident parent access template args stored =>
    have general : graph.Mentions (.symbol id) (.symbol template) :=
      Graph.mentions_template stored rfl
    have positive := Nat.zero_lt_of_lt (order.descends _ _ general)
    exact ofArguments (Graph.holds_symbol_iff.mpr ⟨_, stored⟩) formed positive
      (Graph.mentions_args stored rfl)
  · exact nil

end Below

/-! ## Light types -/

/-- The symbols of a type are held and its weight is below a bound. -/
def Light (order : graph.Order) (bound : Nat) (tree : TypeTree) : Prop :=
  (∀ symbol ∈ tree.symbols, graph.Holds (.symbol symbol)) ∧
    tree.weight (fun symbol => order.rank (.symbol symbol)) < bound

theorem Below.type {order : graph.Order} {bound : Nat} {tree : TypeTree}
    (light : Light order bound tree) (place : π) : Below order bound [.type tree place] :=
  List.forall_mem_singleton.mpr light

namespace Light

variable {order : graph.Order} {bound more : Nat} {tree result : TypeTree}
variable {params : List (Passing × TypeTree)} {convention : Convention} {quals : Qualifiers}

theorem mono (light : Light order bound tree) (enough : bound ≤ more) : Light order more tree :=
  ⟨light.1, light.2.trans_le enough⟩

/-- A type that an entity mentions is light. -/
theorem of_mentions (formed : graph.WellFormed) (order : graph.Order) {entity : Entity}
    {id : TypeId} (mentioned : graph.Mentions entity (.type id)) :
    Light order (8 * order.rank entity) (graph.tree id) := by
  have held := formed.closed _ _ mentioned
  have lower := order.descends _ _ mentioned
  have weight := formed.weight_tree_le order held
  exact ⟨formed.holds_symbols held, by omega⟩

theorem mutable (light : Light order bound tree) : Light order bound tree.mutable := by
  rw [Light, TypeTree.symbols_mutable, TypeTree.weight_mutable]
  exact light

theorem withoutConst (light : Light order bound tree) : Light order bound tree.withoutConst := by
  rw [Light, TypeTree.symbols_withoutConst, TypeTree.weight_withoutConst]
  exact light

theorem shape (light : Light order bound tree) : Light order bound tree.shape.2 := by
  rw [Light, TypeTree.symbols_shape]
  exact ⟨light.1, (TypeTree.weight_shape_le tree).trans_lt light.2⟩

theorem returned (light : Light order (bound + 1) (.function result params convention quals)) :
    Light order bound (TypeTree.returned convention result) := by
  obtain ⟨held, weight⟩ := light
  obtain ⟨heavy, -⟩ := TypeTree.weight_function_le.mp (Nat.le_of_lt_succ weight)
  refine ⟨fun symbol listed => held symbol (TypeTree.mem_symbols_function.mpr (.inl ?_)), ?_⟩
  · rwa [TypeTree.symbols_returned] at listed
  · exact (TypeTree.weight_returned_le convention result).trans_lt heavy

theorem passed (light : Light order (bound + 1) (.function result params convention quals))
    {param : Passing × TypeTree} (listed : param ∈ params) :
    Light order bound (TypeTree.passed param) := by
  obtain ⟨held, weight⟩ := light
  obtain ⟨-, heavy⟩ := TypeTree.weight_function_le.mp (Nat.le_of_lt_succ weight)
  refine ⟨fun symbol named =>
    held symbol (TypeTree.mem_symbols_function.mpr (.inr ⟨param, listed, ?_⟩)), ?_⟩
  · rwa [TypeTree.symbols_passed] at named
  · exact (TypeTree.weight_passed_le param).trans_lt (heavy param listed)

end Light

/-! ## Renamed items -/

def relabel (labels : Relabeling) : Item π → Item π
  | .scope id => .scope (labels.symbol id)
  | .argument owner arg => .argument (labels.symbol owner) (arg.relabel labels)
  | .type tree place => .type (tree.relabel labels.symbol) place

theorem relabel_id (item : Item π) : item.relabel .id = item := by
  cases item with
  | scope id => rfl
  | argument owner arg => exact congrArg (Item.argument owner) arg.relabel_id
  | type tree place => exact congrArg (Item.type · place) tree.relabel_id

/-- The second plan has the scripts of the first for `parts`, under their new names. -/
def Carries {σ : Type} (labels : Relabeling) (rename : (SymbolId → SymbolId) → σ → σ)
    (plan plan' : Item π → σ) (parts : List (Item π)) : Prop :=
  ∀ part ∈ parts, plan' (part.relabel labels) = rename labels.symbol (plan part)

namespace Carries

variable {σ : Type} {labels : Relabeling} {rename : (SymbolId → SymbolId) → σ → σ}
variable {plan plan' : Item π → σ} {parts others : List (Item π)} {part : Item π}

theorem left (carries : Carries labels rename plan plan' (parts ++ others)) :
    Carries labels rename plan plan' parts :=
  fun part listed => carries part (List.mem_append_left _ listed)

theorem right (carries : Carries labels rename plan plan' (parts ++ others)) :
    Carries labels rename plan plan' others :=
  fun part listed => carries part (List.mem_append_right _ listed)

theorem head (carries : Carries labels rename plan plan' (part :: parts)) :
    plan' (part.relabel labels) = rename labels.symbol (plan part) :=
  carries part List.mem_cons_self

theorem tail (carries : Carries labels rename plan plan' (part :: parts)) :
    Carries labels rename plan plan' parts :=
  fun part listed => carries part (List.mem_cons_of_mem _ listed)

/-- A plan is carried to any other that agrees with it. -/
theorem of_eq (fixed : ∀ script, rename (fun symbol => symbol) script = script)
    (same : ∀ part ∈ parts, plan part = plan' part) : Carries .id rename plan plan' parts := by
  intro part listed
  rw [relabel_id, ← same part listed]
  exact (fixed _).symm

end Carries

/-! ## Settling -/

/-- What every item is made of is held and needs less than it. -/
def Descends (graph : Graph) (parts : Item π → List (Item π)) : Prop :=
  ∀ (order : graph.Order) (item : Item π), item.Held graph →
    Below order (item.need order) (parts item)

variable {parts : Item π → List (Item π)}

/-- Where scripts depend on those of the parts alone, more depth than an item needs changes
nothing. -/
theorem stable (descends : Descends graph parts) (order : graph.Order) {σ : Type}
    {within : Nat → Item π → σ}
    (deepen : ∀ depth more item, item.Held graph →
      (∀ part ∈ parts item, within depth part = within more part) →
      within (depth + 1) item = within (more + 1) item)
    {item : Item π} (held : item.Held graph) {depth more : Nat} (deep : item.need order < depth)
    (deeper : item.need order < more) : within depth item = within more item := by
  induction depth generalizing more item with
  | zero => exact absurd deep (Nat.not_lt_zero _)
  | succ depth ih =>
      cases more with
      | zero => exact absurd deeper (Nat.not_lt_zero _)
      | succ more =>
          refine deepen depth more item held fun part listed => ?_
          obtain ⟨heldPart, less⟩ := descends order item held part listed
          exact ih heldPart (by omega) (by omega)

/-- What holds of an item as soon as it holds of its parts holds of all items. -/
theorem induction (descends : Descends graph parts) (order : graph.Order) {motive : Item π → Prop}
    (step : ∀ item, item.Held graph → (∀ part ∈ parts item, motive part) → motive item)
    {item : Item π} (held : item.Held graph) : motive item := by
  induction deep : item.need order using Nat.strong_induction_on generalizing item with
  | _ need ih =>
      refine step item held fun part listed => ?_
      obtain ⟨heldPart, less⟩ := descends order item held part listed
      exact ih _ (deep ▸ less) heldPart rfl

end Item

end LinkName
