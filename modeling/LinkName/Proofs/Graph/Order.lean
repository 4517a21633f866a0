import LinkName.Decl.Graph
import Mathlib.Data.Finset.Card
import Mathlib.Logic.Relation

/-!
What the symbols and types of a graph mention. A well-formed graph mentions only what it holds, and
nothing in it leads back to itself, so that its symbols and types can be ranked: whatever an entity
mentions has a smaller rank. The only member of a template is not counted as mentioned, since it is
added after the template.
-/
namespace LinkName

/-- A symbol or a type of a graph. -/
inductive Entity where
  | symbol (id : SymbolId)
  | type (id : TypeId)
  deriving DecidableEq, Repr

/-- What a template argument names itself; a pack names nothing. -/
def TemplateArg.named? : TemplateArg → Option Entity
  | .type id | .typeAlias id | .value id _ => some (.type id)
  | .symbolAlias id => some (.symbol id)
  | .pack _ => none

def SymbolSort.mentions : SymbolSort → List Entity
  | .specialization general args =>
    .symbol general :: (TemplateArg.leavesOf args).filterMap TemplateArg.named?
  | .function info => [.type info.type]
  | .var info => [.type info.type]
  | _ => []

def Symbol.mentions (symbol : Symbol) : List Entity :=
  symbol.parent.toList.map .symbol ++ symbol.sort.mentions

/-- The only member of a template. -/
def Symbol.member? (symbol : Symbol) : Option SymbolId :=
  match symbol.sort with
  | .template member => member
  | _ => none

namespace TypeForm

/-- The types that a type is made of. -/
def parts : TypeForm → List TypeId
  | .pointer part | .reference part | .staticArray _ part | .vector part | .dynamicArray part
  | .delegate part => [part]
  | .assocArray key value => [key, value]
  | .function signature => signature.result :: signature.params.map Param.type
  | .basic _ | .record _ | .enumeration _ _ | .classRef _ | .typedef _ => []

/-- The symbol that a type names. -/
def symbol? : TypeForm → Option SymbolId
  | .record symbol | .enumeration symbol _ | .classRef symbol | .typedef symbol => some symbol
  | _ => none

def mentions (form : TypeForm) : List Entity :=
  form.parts.map .type ++ form.symbol?.toList.map .symbol

end TypeForm

namespace Graph

/-- Whether an entity is one of the graph's. -/
def Holds (graph : Graph) : Entity → Prop
  | .symbol id => id.index < graph.symbols.length
  | .type id => id.index < graph.types.length

instance (graph : Graph) (entity : Entity) : Decidable (graph.Holds entity) :=
  match entity with
  | .symbol id => inferInstanceAs (Decidable (id.index < graph.symbols.length))
  | .type id => inferInstanceAs (Decidable (id.index < graph.types.length))

def mentions (graph : Graph) : Entity → List Entity
  | .symbol id => (graph.symbols[id.index]?.map Symbol.mentions).getD []
  | .type id => (graph.types[id.index]?.map (·.form.mentions)).getD []

def Mentions (graph : Graph) (entity mention : Entity) : Prop := mention ∈ graph.mentions entity

/-- Handles lead to entities of the graph, no entity leads back to itself, and equal types share a
handle. -/
structure WellFormed (graph : Graph) : Prop where
  closed : ∀ entity, ∀ mention ∈ graph.mentions entity, graph.Holds mention
  members : ∀ symbol ∈ graph.symbols, ∀ member,
    symbol.sort = .template (some member) → graph.Holds (.symbol member)
  acyclic : ∀ entity, ¬ Relation.TransGen graph.Mentions entity entity
  shared : graph.types.Nodup

/-- A ranking in which everything mentioned comes earlier. -/
structure Order (graph : Graph) where
  rank : Entity → Nat
  rank_lt : ∀ entity, graph.Holds entity → rank entity < graph.symbols.length + graph.types.length
  descends : ∀ entity mention, graph.Mentions entity mention → rank mention < rank entity

variable {graph : Graph}

theorem holds_symbol_iff {id : SymbolId} :
    graph.Holds (.symbol id) ↔ ∃ symbol, graph.symbol id = .ok symbol := by
  simp only [Holds, symbol_eq_ok_iff]
  constructor
  · intro inside
    exact ⟨_, List.getElem?_eq_getElem inside⟩
  · rintro ⟨symbol, found⟩
    exact (List.getElem?_eq_some_iff.mp found).1

theorem holds_type_iff {id : TypeId} :
    graph.Holds (.type id) ↔ ∃ node, graph.type id = .ok node := by
  simp only [Holds, type_eq_ok_iff]
  constructor
  · intro inside
    exact ⟨_, List.getElem?_eq_getElem inside⟩
  · rintro ⟨node, found⟩
    exact (List.getElem?_eq_some_iff.mp found).1

theorem mentions_symbol {id : SymbolId} {symbol : Symbol} (found : graph.symbol id = .ok symbol) :
    graph.mentions (.symbol id) = symbol.mentions := by
  simp [mentions, symbol_eq_ok_iff.mp found]

theorem mentions_type {id : TypeId} {node : TypeNode} (found : graph.type id = .ok node) :
    graph.mentions (.type id) = node.form.mentions := by
  simp [mentions, type_eq_ok_iff.mp found]

/-- Only what the graph holds mentions anything. -/
theorem holds_of_mentions {entity mention : Entity} (mentioned : graph.Mentions entity mention) :
    graph.Holds entity := by
  unfold Mentions mentions at mentioned
  cases entity with
  | symbol id =>
      by_contra outside
      simp [List.getElem?_eq_none (Nat.not_lt.mp outside)] at mentioned
  | type id =>
      by_contra outside
      simp [List.getElem?_eq_none (Nat.not_lt.mp outside)] at mentioned

/-! ## Ranking a well-formed graph -/

def entities (graph : Graph) : Finset Entity :=
  (Finset.range graph.symbols.length).image (fun index => .symbol ⟨index⟩) ∪
    (Finset.range graph.types.length).image (fun index => .type ⟨index⟩)

theorem mem_entities_iff {entity : Entity} : entity ∈ graph.entities ↔ graph.Holds entity := by
  rcases entity with ⟨⟨index⟩⟩ | ⟨⟨index⟩⟩ <;> simp [entities, Holds]

theorem card_entities_le : graph.entities.card ≤ graph.symbols.length + graph.types.length := by
  refine (Finset.card_union_le _ _).trans (Nat.add_le_add ?_ ?_)
  · exact Finset.card_image_le.trans_eq (Finset.card_range _)
  · exact Finset.card_image_le.trans_eq (Finset.card_range _)

section

open Classical

/-- Everything that an entity leads to. -/
noncomputable def reachable (graph : Graph) (entity : Entity) : Finset Entity :=
  graph.entities.filter (Relation.TransGen graph.Mentions entity)

theorem reachable_ssubset (formed : graph.WellFormed) {entity mention : Entity}
    (mentioned : graph.Mentions entity mention) :
    graph.reachable mention ⊂ graph.reachable entity := by
  have reached : mention ∈ graph.reachable entity :=
    Finset.mem_filter.mpr
      ⟨mem_entities_iff.mpr (formed.closed entity mention mentioned), .single mentioned⟩
  refine (Finset.ssubset_iff_of_subset ?_).mpr ⟨mention, reached, ?_⟩
  · intro other further
    obtain ⟨held, path⟩ := Finset.mem_filter.mp further
    exact Finset.mem_filter.mpr ⟨held, .head mentioned path⟩
  · intro back
    exact formed.acyclic mention (Finset.mem_filter.mp back).2

theorem reachable_ssubset_entities (formed : graph.WellFormed) {entity : Entity}
    (held : graph.Holds entity) : graph.reachable entity ⊂ graph.entities := by
  refine (Finset.ssubset_iff_of_subset (Finset.filter_subset _ _)).mpr
    ⟨entity, mem_entities_iff.mpr held, ?_⟩
  intro back
  exact formed.acyclic entity (Finset.mem_filter.mp back).2

/-- An entity is ranked by how many others it leads to. -/
noncomputable def WellFormed.order (formed : graph.WellFormed) : graph.Order where
  rank entity := (graph.reachable entity).card
  rank_lt _ held :=
    (Finset.card_lt_card (reachable_ssubset_entities formed held)).trans_le card_entities_le
  descends _ _ mentioned := Finset.card_lt_card (reachable_ssubset formed mentioned)

end

end Graph

end LinkName
