import LinkName.Proofs.Itanium.Settled
import LinkName.Proofs.Microsoft.Settled
import LinkName.Naming

/-!
Names depend on what a declaration is made of and on nothing else. Handles, the order of
construction, and whatever else a graph holds may all differ: a graph that is found inside another
gives every declaration the same name there, or the same refusal.
-/
namespace LinkName

/-- Every symbol and every type node of a graph is found in another graph under a new handle, and no
two symbols under the same one. -/
structure Graph.Carried (graph graph' : Graph) (labels : Relabeling) : Prop where
  injective : ∀ id other, graph.Holds (.symbol id) → graph.Holds (.symbol other) →
    labels.symbol id = labels.symbol other → id = other
  symbol : ∀ id symbol, graph.symbol id = .ok symbol →
    graph'.symbol (labels.symbol id) = .ok (symbol.relabel labels)
  type : ∀ id node, graph.type id = .ok node →
    graph'.type (labels.type id) = .ok (node.relabel labels)

namespace Relabeling

/-- The handles that a graph does not hold are moved behind those that another one holds. -/
def beyond (labels : Relabeling) (graph graph' : Graph) : Relabeling where
  symbol id :=
    if id.index < graph.symbols.length then labels.symbol id
    else ⟨graph'.symbols.length + id.index⟩
  type id :=
    if id.index < graph.types.length then labels.type id
    else ⟨graph'.types.length + id.index⟩

variable {labels : Relabeling} {graph graph' : Graph}

theorem agree_beyond {entity : Entity} (held : graph.Holds entity) :
    labels.Agree (labels.beyond graph graph') entity := by
  cases entity with
  | symbol id => exact (if_pos held).symm
  | type id => exact (if_pos held).symm

end Relabeling

namespace Graph

variable {graph graph' : Graph} {labels : Relabeling}

theorem WellFormed.symbol_relabel_beyond (formed : graph.WellFormed) {id : SymbolId}
    {symbol : Symbol} (stored : graph.symbol id = .ok symbol) :
    symbol.relabel labels = symbol.relabel (labels.beyond graph graph') := by
  refine Symbol.relabel_congr (fun entity mentioned => ?_) fun member sort => ?_
  · refine Relabeling.agree_beyond (formed.closed (.symbol id) entity ?_)
    rwa [mentions_symbol stored]
  · have listed : symbol ∈ graph.symbols := List.mem_of_getElem? (symbol_eq_ok_iff.mp stored)
    exact Relabeling.agree_beyond (formed.members symbol listed member sort)

theorem WellFormed.type_relabel_beyond (formed : graph.WellFormed) {id : TypeId} {node : TypeNode}
    (stored : graph.type id = .ok node) :
    node.relabel labels = node.relabel (labels.beyond graph graph') := by
  refine TypeNode.relabel_congr fun entity mentioned => ?_
  refine Relabeling.agree_beyond (formed.closed (.type id) entity ?_)
  rwa [mentions_type stored]

namespace Carried

variable (carried : graph.Carried graph' labels)
include carried

theorem holds_symbol {id : SymbolId} (held : graph.Holds (.symbol id)) :
    graph'.Holds (.symbol (labels.symbol id)) := by
  obtain ⟨symbol, stored⟩ := holds_symbol_iff.mp held
  exact holds_symbol_iff.mpr ⟨_, carried.symbol id symbol stored⟩

/-- The handles that the graph does not hold can be given new names as well. -/
theorem embeds (formed : graph.WellFormed) :
    graph.Embeds graph' (labels.beyond graph graph') where
  injective id other same := by
    simp only [Relabeling.beyond] at same
    by_cases held : id.index < graph.symbols.length
    · by_cases also : other.index < graph.symbols.length
      · rw [if_pos held, if_pos also] at same
        exact carried.injective id other held also same
      · rw [if_pos held, if_neg also] at same
        have inside : (labels.symbol id).index < graph'.symbols.length := carried.holds_symbol held
        rw [same] at inside
        exact absurd inside (Nat.not_lt.mpr (Nat.le_add_right _ _))
    · by_cases also : other.index < graph.symbols.length
      · rw [if_neg held, if_pos also] at same
        have inside : (labels.symbol other).index < graph'.symbols.length :=
          carried.holds_symbol also
        rw [← same] at inside
        exact absurd inside (Nat.not_lt.mpr (Nat.le_add_right _ _))
      · rw [if_neg held, if_neg also, SymbolId.mk.injEq] at same
        exact congrArg SymbolId.mk (Nat.add_left_cancel same)
  symbol id := by
    by_cases held : id.index < graph.symbols.length
    · obtain ⟨symbol, stored⟩ := holds_symbol_iff.mp held
      have there := symbol_eq_ok_iff.mp (carried.symbol id symbol stored)
      rw [symbol_eq_ok_iff.mp stored, Option.map_some, ← formed.symbol_relabel_beyond stored,
        ← there]
      simp only [Relabeling.beyond, if_pos held]
    · rw [List.getElem?_eq_none (Nat.not_lt.mp held), Option.map_none]
      refine List.getElem?_eq_none ?_
      simp only [Relabeling.beyond, if_neg held]
      exact Nat.le_add_right _ _
  type id := by
    by_cases held : id.index < graph.types.length
    · obtain ⟨node, stored⟩ := holds_type_iff.mp held
      have there := type_eq_ok_iff.mp (carried.type id node stored)
      rw [type_eq_ok_iff.mp stored, Option.map_some, ← formed.type_relabel_beyond stored, ← there]
      simp only [Relabeling.beyond, if_pos held]
    · rw [List.getElem?_eq_none (Nat.not_lt.mp held), Option.map_none]
      refine List.getElem?_eq_none ?_
      simp only [Relabeling.beyond, if_neg held]
      exact Nat.le_add_right _ _

end Carried

end Graph

/-! ## Embedded graphs -/

section

variable {graph graph' : Graph} {labels : Relabeling} {id : SymbolId}
variable (embeds : graph.Embeds graph' labels)
variable (formed : graph.WellFormed) (formed' : graph'.WellFormed)
include embeds formed formed'

theorem Itanium.Plan.settled_embedded (machine : Target) (held : graph.Holds (.symbol id)) :
    (Plan.settled formed'.order machine).declaration graph' machine (labels.symbol id) =
      ((Plan.settled formed.order machine).declaration graph machine id).relabel labels.symbol := by
  obtain ⟨depth, deep, deep'⟩ : ∃ depth, 8 * formed.order.rank (.symbol id) ≤ depth ∧
      8 * formed'.order.rank (.symbol (labels.symbol id)) ≤ depth :=
    ⟨max _ _, Nat.le_max_left _ _, Nat.le_max_right _ _⟩
  rw [← declaration_settled formed formed.order held deep,
    ← declaration_settled formed' formed'.order (embeds.holds_symbol held) deep']
  refine declaration_relabel machine embeds formed formed' held fun part listed => ?_
  have below := Item.below_ofDeclaration formed formed.order id part listed
  exact within_relabel machine embeds formed formed' depth below.1

theorem Microsoft.Plan.settled_embedded (machine : Target) (held : graph.Holds (.symbol id)) :
    (Plan.settled formed'.order machine).declaration graph' machine (labels.symbol id) =
      ((Plan.settled formed.order machine).declaration graph machine id).relabel labels.symbol := by
  obtain ⟨depth, deep, deep'⟩ : ∃ depth, 8 * formed.order.rank (.symbol id) ≤ depth ∧
      8 * formed'.order.rank (.symbol (labels.symbol id)) ≤ depth :=
    ⟨max _ _, Nat.le_max_left _ _, Nat.le_max_right _ _⟩
  rw [← declaration_settled formed formed.order held deep,
    ← declaration_settled formed' formed'.order (embeds.holds_symbol held) deep']
  refine declaration_relabel machine embeds formed formed' held fun part listed => ?_
  have below := Item.below_ofDeclaration formed formed.order held part listed
  exact within_relabel machine embeds formed formed' depth below.1

theorem Itanium.name_embedded (machine : Target) (held : graph.Holds (.symbol id)) :
    name graph' machine (labels.symbol id) = name graph machine id := by
  have script := Plan.settled_embedded embeds formed formed' machine held
  have run := Script.run_relabel embeds.injective
    ((Plan.settled formed.order machine).declaration graph machine id) Table.unbounded
  have outcome := outcome_eq_run formed formed.order machine held none
  have outcome' := outcome_eq_run formed' formed'.order machine (embeds.holds_symbol held) none
  have same : Encoder.outcome (encode machine (labels.symbol id) : Encoder graph' (List Token))
        Table.unbounded =
      Encoder.outcome (encode machine id : Encoder graph (List Token)) Table.unbounded := by
    refine outcome'.trans (Eq.trans ?_ outcome.symm)
    rw [script]
    exact (congrArg (Prod.fst <$> ·) run).trans (Functor.map_map _ _ _)
  rw [name, name, same]

theorem Microsoft.name_embedded (machine : Target) (held : graph.Holds (.symbol id)) :
    name graph' machine (labels.symbol id) = name graph machine id := by
  have script := Plan.settled_embedded embeds formed formed' machine held
  have run := Script.blind_run embeds.injective
    ((Plan.settled formed.order machine).declaration graph machine id) (Record.bounded 10)
  have outcome := outcome_eq_run formed formed.order machine held 10
  have outcome' := outcome_eq_run formed' formed'.order machine (embeds.holds_symbol held) 10
  have same : Encoder.outcome (encode machine (labels.symbol id) : Encoder graph' (List Token))
        (Tables.bounded 10) =
      Encoder.outcome (encode machine id : Encoder graph (List Token)) (Tables.bounded 10) := by
    refine outcome'.trans (Eq.trans ?_ outcome.symm)
    rw [script]
    exact (congrArg (Prod.fst <$> ·) run).trans (Functor.map_map _ _ _)
  rw [name, name, same]

end

namespace Graph.Carried

variable {graph graph' : Graph} {labels : Relabeling} {id : SymbolId}
variable (carried : graph.Carried graph' labels)
variable (formed : graph.WellFormed) (formed' : graph'.WellFormed)
include carried formed formed'

theorem itanium_name (machine : Target) (held : graph.Holds (.symbol id)) :
    Itanium.name graph' machine (labels.symbol id) = Itanium.name graph machine id := by
  have moved : labels.symbol id = (labels.beyond graph graph').symbol id :=
    Relabeling.agree_beyond held
  rw [moved]
  exact Itanium.name_embedded (carried.embeds formed) formed formed' machine held

theorem microsoft_name (machine : Target) (held : graph.Holds (.symbol id)) :
    Microsoft.name graph' machine (labels.symbol id) = Microsoft.name graph machine id := by
  have moved : labels.symbol id = (labels.beyond graph graph').symbol id :=
    Relabeling.agree_beyond held
  rw [moved]
  exact Microsoft.name_embedded (carried.embeds formed) formed formed' machine held

end Graph.Carried

/-! ## Every target -/

/-- A graph carried into another one names every symbol there as it did before, or refuses it for
the same reason. -/
theorem nameFor_carried {graph graph' : Graph} (formed : graph.WellFormed)
    (formed' : graph'.WellFormed) {labels : Relabeling} (carried : graph.Carried graph' labels)
    (target : Target) {id : SymbolId} (held : graph.Holds (.symbol id)) :
    Itanium.nameFor graph' target (labels.symbol id) = Itanium.nameFor graph target id ∧
      Microsoft.nameFor graph' target (labels.symbol id) = Microsoft.nameFor graph target id :=
  ⟨carried.itanium_name formed formed' target held,
    carried.microsoft_name formed formed' target held⟩

/-- A function of a module, with a parameter passed by reference. -/
def scaling : Graph where
  symbols :=
    [{ ident := "app", sort := .moduleScope },
      { ident := "scale", parent := some ⟨0⟩, sort := .function { type := ⟨2⟩ } }]
  types :=
    [{ form := .basic .int32 }, { form := .basic .void },
      { form := .function { result := ⟨1⟩, params := [{ type := ⟨0⟩, passing := .ref }] } }]

/-- The same function in a graph that holds the type of references already. -/
def scalingAmongOthers : Graph where
  symbols :=
    [{ ident := "app", sort := .moduleScope },
      { ident := "Scale", parent := some ⟨0⟩, sort := .record .struct },
      { ident := "scale", parent := some ⟨0⟩, sort := .function { type := ⟨3⟩ } }]
  types :=
    [{ form := .basic .void }, { form := .basic .int32 }, { form := .reference ⟨1⟩ },
      { form := .function { result := ⟨0⟩, params := [{ type := ⟨1⟩, passing := .ref }] } }]

theorem scaling_built : scaling.Built :=
  Graph.built_of_takeAll?
    [.symbol { ident := "app", sort := .moduleScope }, .type { form := .basic .int32 },
      .type { form := .basic .void },
      .type { form := .function { result := ⟨1⟩, params := [{ type := ⟨0⟩, passing := .ref }] } },
      .symbol { ident := "scale", parent := some ⟨0⟩, sort := .function { type := ⟨2⟩ } }] rfl

theorem scalingAmongOthers_built : scalingAmongOthers.Built :=
  Graph.built_of_takeAll?
    [.symbol { ident := "app", sort := .moduleScope },
      .symbol { ident := "Scale", parent := some ⟨0⟩, sort := .record .struct },
      .type { form := .basic .void }, .type { form := .basic .int32 },
      .type { form := .reference ⟨1⟩ },
      .type { form := .function { result := ⟨0⟩, params := [{ type := ⟨1⟩, passing := .ref }] } },
      .symbol { ident := "scale", parent := some ⟨0⟩, sort := .function { type := ⟨3⟩ } }] rfl

def scalingMoved : Relabeling where
  symbol id := if id.index = 0 then ⟨0⟩ else ⟨id.index + 1⟩
  type id := if id.index = 0 then ⟨1⟩ else if id.index = 1 then ⟨0⟩ else ⟨3⟩

theorem scaling_carried : scaling.Carried scalingAmongOthers scalingMoved where
  injective := by
    rintro ⟨_ | _ | first⟩ ⟨_ | _ | second⟩ <;> simp [Graph.Holds, scaling, scalingMoved]
  symbol := by
    rintro ⟨_ | _ | index⟩ symbol stored <;> cases stored <;> rfl
  type := by
    rintro ⟨_ | _ | _ | index⟩ node stored <;> cases stored <;> rfl

theorem nameFor_scalingAmongOthers :
    scaling.Carried scalingAmongOthers scalingMoved ∧
      Itanium.nameFor scalingAmongOthers .itanium64 ⟨2⟩ =
        Itanium.nameFor scaling .itanium64 ⟨1⟩ ∧
      Microsoft.nameFor scalingAmongOthers .itanium64 ⟨2⟩ =
        Microsoft.nameFor scaling .itanium64 ⟨1⟩ ∧
      Itanium.nameFor scaling .itanium64 ⟨1⟩ = .ok "_Z5scaleRi" :=
  have names := nameFor_carried scaling_built.wellFormed scalingAmongOthers_built.wellFormed
    scaling_carried .itanium64 (show scaling.Holds (.symbol ⟨1⟩) by decide)
  ⟨scaling_carried, names.1, names.2, by decide +kernel⟩

/-- Whatever is added to a graph, the names of its symbols stay. -/
theorem nameFor_extended {graph later : Graph} (formed : graph.WellFormed)
    (formed' : later.WellFormed) (symbols : graph.symbols <+: later.symbols)
    (types : graph.types <+: later.types) (target : Target) {id : SymbolId}
    (held : graph.Holds (.symbol id)) :
    Itanium.nameFor later target id = Itanium.nameFor graph target id ∧
      Microsoft.nameFor later target id = Microsoft.nameFor graph target id := by
  have carried : graph.Carried later .id := by
    refine ⟨fun _ _ _ _ same => same, fun id symbol stored => ?_, fun id node stored => ?_⟩
    · rw [Graph.symbol_eq_ok_iff] at stored
      rw [Symbol.relabel_id, Graph.symbol_eq_ok_iff]
      obtain ⟨inside, rfl⟩ := List.getElem?_eq_some_iff.mp stored
      exact List.prefix_iff_getElem?.mp symbols _ inside
    · rw [Graph.type_eq_ok_iff] at stored
      rw [TypeNode.relabel_id, Graph.type_eq_ok_iff]
      obtain ⟨inside, rfl⟩ := List.getElem?_eq_some_iff.mp stored
      exact List.prefix_iff_getElem?.mp types _ inside
  exact ⟨carried.itanium_name formed formed' target held,
    carried.microsoft_name formed formed' target held⟩

end LinkName
