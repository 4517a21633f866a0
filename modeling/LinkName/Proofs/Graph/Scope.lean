import LinkName.Proofs.Graph.Order

/-!
Scopes in a well-formed graph. The levels of a name are found for every symbol, and all of them are
the symbol itself or lie above it.
-/
namespace LinkName.Graph

variable {graph : Graph} {id : SymbolId}

theorem mentions_parent {found : Symbol} {parent : SymbolId} (stored : graph.symbol id = .ok found)
    (scope : found.parent = some parent) : graph.Mentions (.symbol id) (.symbol parent) := by
  rw [Mentions, mentions_symbol stored]
  exact List.mem_append_left _ (by simp [scope])

theorem mentions_template {found : Symbol} {template : SymbolId}
    (stored : graph.symbol id = .ok found) (special : found.template? = some template) :
    graph.Mentions (.symbol id) (.symbol template) := by
  rw [Mentions, mentions_symbol stored]
  refine List.mem_append_right _ ?_
  rcases found with ⟨ident, parent, access, sort⟩
  cases sort <;> simp_all [Symbol.template?, SymbolSort.mentions]

theorem WellFormed.symbol_mention (formed : graph.WellFormed) {entity : Entity} {mention : SymbolId}
    (mentioned : graph.Mentions entity (.symbol mention)) :
    ∃ found, graph.symbol mention = .ok found :=
  holds_symbol_iff.mp (formed.closed _ _ mentioned)

/-! ## One step outwards -/

/-- A scope is the parent, unless that is a module. -/
theorem scopeParent_eq_ok_iff {scope : Option SymbolId} :
    graph.scopeParent id = .ok scope ↔ ∃ symbol, graph.symbol id = .ok symbol ∧
      (symbol.parent = none ∧ scope = none ∨
        ∃ parent outer, symbol.parent = some parent ∧ graph.symbol parent = .ok outer ∧
          scope = if outer.isModule then none else some parent) := by
  unfold scopeParent
  cases stored : graph.symbol id with
  | error fault => simp [bind, Except.bind]
  | ok symbol =>
      cases above : symbol.parent with
      | none => simp [above, bind, Except.bind, pure, Except.pure, @eq_comm _ scope]
      | some parent =>
          cases known : graph.symbol parent <;>
            simp [above, known, bind, Except.bind, pure, Except.pure, @eq_comm _ scope]

/-- A level is the symbol itself in its scope, unless it is a member of a specialization, which is
then named in its place. -/
theorem level_eq_ok_iff {level : Level} :
    graph.level id = .ok level ↔ ∃ symbol, graph.symbol id = .ok symbol ∧
      (symbol.parent = none ∧ level = { name := id, scope := none, template := none } ∨
        ∃ parent outer, symbol.parent = some parent ∧ graph.symbol parent = .ok outer ∧
          (outer.template? = none ∧
              level = { name := id, scope := if outer.isModule then none else some parent,
                        template := none } ∨
            ∃ template scope, outer.template? = some template ∧
              graph.scopeParent parent = .ok scope ∧
                level = { name := parent, scope, template := some template })) := by
  unfold Graph.level
  cases stored : graph.symbol id with
  | error fault => simp [bind, Except.bind]
  | ok symbol =>
      cases above : symbol.parent with
      | none => simp [above, bind, Except.bind, pure, Except.pure, @eq_comm _ level]
      | some parent =>
          cases known : graph.symbol parent with
          | error fault => simp [above, known, bind, Except.bind]
          | ok outer =>
              cases special : outer.template? with
              | none =>
                  simp [above, known, special, bind, Except.bind, pure, Except.pure, @eq_comm _ level]
              | some template =>
                  cases around : graph.scopeParent parent <;>
                    simp [above, known, special, around, bind, Except.bind, pure, Except.pure,
                      @eq_comm _ level]

/-- Either the levels end here, or they go on with those of the parent. -/
theorem levelsWithin_succ_eq_ok_iff {fuel : Nat} {names : List SymbolId} :
    graph.levelsWithin (fuel + 1) id = .ok names ↔
      ∃ level symbol, graph.level id = .ok level ∧ graph.symbol level.name = .ok symbol ∧
        (symbol.isModule = true ∧ names = [] ∨
          symbol.isModule = false ∧ (symbol.parent = none ∧ names = [level.name] ∨
            ∃ parent rest, symbol.parent = some parent ∧ graph.levelsWithin fuel parent = .ok rest ∧
              names = level.name :: rest)) := by
  rw [levelsWithin]
  cases leveled : graph.level id with
  | error fault => simp [bind, Except.bind]
  | ok level =>
      cases stored : graph.symbol level.name with
      | error fault => simp [stored, bind, Except.bind]
      | ok symbol =>
          cases module : symbol.isModule with
          | true => simp [stored, module, bind, Except.bind, pure, Except.pure]
          | false =>
              cases above : symbol.parent with
              | none =>
                  simp [stored, module, above, bind, Except.bind, pure, Except.pure,
                    @eq_comm _ names [level.name]]
              | some parent =>
                  cases rest : graph.levelsWithin fuel parent <;>
                    simp [stored, module, above, rest, bind, Except.bind, pure, Except.pure,
                      @eq_comm _ names (_ :: _)]

theorem scopeParent_cases {symbol : Symbol} {scope : Option SymbolId}
    (stored : graph.symbol id = .ok symbol) (found : graph.scopeParent id = .ok scope) :
    symbol.parent = none ∧ scope = none ∨
      ∃ parent outer, symbol.parent = some parent ∧ graph.symbol parent = .ok outer ∧
        (outer.isModule = true ∧ scope = none ∨ outer.isModule = false ∧ scope = some parent) := by
  obtain ⟨symbol', stored', ends⟩ := scopeParent_eq_ok_iff.mp found
  cases stored.symm.trans stored'
  rcases ends with top | ⟨parent, outer, above, known, rfl⟩
  · exact .inl top
  · refine .inr ⟨parent, outer, above, known, ?_⟩
    cases outer.isModule <;> simp

theorem WellFormed.scopeParent_eq_ok (formed : graph.WellFormed)
    (held : graph.Holds (.symbol id)) : ∃ scope, graph.scopeParent id = .ok scope := by
  obtain ⟨found, stored⟩ := holds_symbol_iff.mp held
  simp only [scopeParent_eq_ok_iff]
  cases scope : found.parent with
  | none => exact ⟨none, found, stored, .inl ⟨scope, rfl⟩⟩
  | some parent =>
      obtain ⟨outer, known⟩ := formed.symbol_mention (mentions_parent stored scope)
      exact ⟨_, found, stored, .inr ⟨parent, outer, scope, known, rfl⟩⟩

theorem mentions_scopeParent {outer : SymbolId} (scope : graph.scopeParent id = .ok (some outer)) :
    graph.Mentions (.symbol id) (.symbol outer) := by
  obtain ⟨symbol, stored, -⟩ := scopeParent_eq_ok_iff.mp scope
  rcases scopeParent_cases stored scope with
    ⟨-, ⟨⟩⟩ | ⟨parent, _, above, -, ⟨-, ⟨⟩⟩ | ⟨-, ⟨⟩⟩⟩
  exact mentions_parent stored above

theorem WellFormed.level_eq_ok (formed : graph.WellFormed) (held : graph.Holds (.symbol id)) :
    ∃ level, graph.level id = .ok level := by
  obtain ⟨found, stored⟩ := holds_symbol_iff.mp held
  simp only [level_eq_ok_iff]
  cases scope : found.parent with
  | none => exact ⟨_, found, stored, .inl ⟨scope, rfl⟩⟩
  | some parent =>
      have mentioned := mentions_parent stored scope
      obtain ⟨outer, known⟩ := formed.symbol_mention mentioned
      cases special : outer.template? with
      | none => exact ⟨_, found, stored, .inr ⟨parent, outer, scope, known, .inl ⟨special, rfl⟩⟩⟩
      | some template =>
          obtain ⟨further, around⟩ := formed.scopeParent_eq_ok (formed.closed _ _ mentioned)
          exact ⟨_, found, stored, .inr
            ⟨parent, outer, scope, known, .inr ⟨template, further, special, around, rfl⟩⟩⟩

/-- A level is that of the symbol itself or, where the symbol is a member of a specialization, that
of the specialization. -/
structure IsLevel (graph : Graph) (id : SymbolId) (level : Level) : Prop where
  name : level.name = id ∧ level.template = none ∨
    graph.Mentions (.symbol id) (.symbol level.name) ∧ ∃ found template,
      graph.symbol level.name = .ok found ∧ found.template? = some template ∧
        level.template = some template
  scope : graph.scopeParent level.name = .ok level.scope

theorem isLevel_of_level {level : Level} (same : graph.level id = .ok level) :
    graph.IsLevel id level := by
  obtain ⟨symbol, stored, ⟨above, rfl⟩ | ⟨parent, outer, above, known, inside⟩⟩ :=
    level_eq_ok_iff.mp same
  · exact ⟨.inl ⟨rfl, rfl⟩, scopeParent_eq_ok_iff.mpr ⟨symbol, stored, .inl ⟨above, rfl⟩⟩⟩
  · rcases inside with ⟨-, rfl⟩ | ⟨template, scope, special, around, rfl⟩
    · exact ⟨.inl ⟨rfl, rfl⟩,
        scopeParent_eq_ok_iff.mpr ⟨symbol, stored, .inr ⟨parent, outer, above, known, rfl⟩⟩⟩
    · exact ⟨.inr ⟨mentions_parent stored above, outer, template, known, special, rfl⟩, around⟩

namespace IsLevel

variable {level : Level}

theorem holds_name (isLevel : graph.IsLevel id level) (formed : graph.WellFormed)
    (held : graph.Holds (.symbol id)) : graph.Holds (.symbol level.name) := by
  rcases isLevel.name with ⟨same, -⟩ | ⟨mentioned, -⟩
  · rwa [same]
  · exact formed.closed _ _ mentioned

theorem rank_name_le (isLevel : graph.IsLevel id level) (order : graph.Order) :
    order.rank (.symbol level.name) ≤ order.rank (.symbol id) := by
  rcases isLevel.name with ⟨same, -⟩ | ⟨mentioned, -⟩
  · rw [same]
  · exact (order.descends _ _ mentioned).le

theorem mentions_scope (isLevel : graph.IsLevel id level) {outer : SymbolId}
    (scope : level.scope = some outer) :
    graph.Mentions (.symbol level.name) (.symbol outer) :=
  mentions_scopeParent (scope ▸ isLevel.scope)

theorem mentions_template (isLevel : graph.IsLevel id level) {template : SymbolId}
    (special : level.template = some template) :
    graph.Mentions (.symbol level.name) (.symbol template) := by
  rcases isLevel.name with ⟨-, none⟩ | ⟨-, found, general, stored, same, known⟩
  · simp [none] at special
  · obtain rfl : general = template := by simpa [known] using special
    exact Graph.mentions_template stored same

end IsLevel

/-! ## How deep scopes are nested -/

section

open Classical

/-- The symbols that a symbol leads to. -/
noncomputable def above (graph : Graph) (id : SymbolId) : Finset Nat :=
  (Finset.range graph.symbols.length).filter fun index =>
    Relation.TransGen graph.Mentions (.symbol id) (.symbol ⟨index⟩)

theorem WellFormed.card_above_lt (formed : graph.WellFormed) {outer : SymbolId}
    (mentioned : graph.Mentions (.symbol id) (.symbol outer)) :
    (graph.above outer).card < (graph.above id).card := by
  have held : outer.index < graph.symbols.length := formed.closed _ _ mentioned
  have reached : outer.index ∈ graph.above id :=
    Finset.mem_filter.mpr ⟨Finset.mem_range.mpr held, .single mentioned⟩
  refine Finset.card_lt_card ((Finset.ssubset_iff_of_subset ?_).mpr ⟨outer.index, reached, ?_⟩)
  · intro index further
    obtain ⟨inside, path⟩ := Finset.mem_filter.mp further
    exact Finset.mem_filter.mpr ⟨inside, .head mentioned path⟩
  · intro back
    exact formed.acyclic _ (Finset.mem_filter.mp back).2

theorem WellFormed.card_above_le (formed : graph.WellFormed) (held : graph.Holds (.symbol id)) :
    (graph.above id).card < graph.symbols.length := by
  have inside : id.index ∈ Finset.range graph.symbols.length := Finset.mem_range.mpr held
  have proper : graph.above id ⊂ Finset.range graph.symbols.length := by
    refine (Finset.ssubset_iff_of_subset (Finset.filter_subset _ _)).mpr ⟨id.index, inside, ?_⟩
    intro back
    exact formed.acyclic _ (Finset.mem_filter.mp back).2
  simpa using Finset.card_lt_card proper

end

/-- Where the levels of a name lie. -/
def AtOrAbove (graph : Graph) (id name : SymbolId) : Prop :=
  Relation.ReflTransGen graph.Mentions (.symbol id) (.symbol name)

theorem AtOrAbove.holds {name : SymbolId} (formed : graph.WellFormed)
    (held : graph.Holds (.symbol id)) (above : graph.AtOrAbove id name) :
    graph.Holds (.symbol name) := by
  rcases Relation.ReflTransGen.cases_tail above with same | ⟨entity, -, mentioned⟩
  · rwa [same]
  · exact formed.closed _ _ mentioned

theorem Order.rank_le_of_reaches (order : graph.Order) {first last : Entity}
    (path : Relation.ReflTransGen graph.Mentions first last) :
    order.rank last ≤ order.rank first := by
  induction path with
  | refl => exact le_rfl
  | tail _ mentioned ih => exact (order.descends _ _ mentioned).le.trans ih

theorem WellFormed.levelsWithin_eq_ok (formed : graph.WellFormed) (fuel : Nat)
    (held : graph.Holds (.symbol id)) (deep : (graph.above id).card < fuel) :
    ∃ names, graph.levelsWithin fuel id = .ok names ∧ ∀ name ∈ names, graph.AtOrAbove id name := by
  induction fuel generalizing id with
  | zero => exact absurd deep (Nat.not_lt_zero _)
  | succ fuel ih =>
      obtain ⟨level, found⟩ := formed.level_eq_ok held
      have isLevel := isLevel_of_level found
      obtain ⟨symbol, stored⟩ := holds_symbol_iff.mp (isLevel.holds_name formed held)
      have name : graph.AtOrAbove id level.name := by
        rcases isLevel.name with ⟨same, -⟩ | ⟨mentioned, -⟩
        · rw [same]
          exact .refl
        · exact .single mentioned
      have depth : (graph.above level.name).card ≤ (graph.above id).card := by
        rcases isLevel.name with ⟨same, -⟩ | ⟨mentioned, -⟩
        · rw [same]
        · exact (formed.card_above_lt mentioned).le
      cases module : symbol.isModule with
      | true => exact ⟨[], levelsWithin_succ_eq_ok_iff.mpr
          ⟨level, symbol, found, stored, .inl ⟨module, rfl⟩⟩, by simp⟩
      | false =>
          cases scope : symbol.parent with
          | none => exact ⟨[level.name], levelsWithin_succ_eq_ok_iff.mpr
              ⟨level, symbol, found, stored, .inr ⟨module, .inl ⟨scope, rfl⟩⟩⟩, by simpa using name⟩
          | some parent =>
              have mentioned := mentions_parent stored scope
              have lower := formed.card_above_lt mentioned
              obtain ⟨names, rest, listed⟩ := ih (formed.closed _ _ mentioned) (by omega)
              refine ⟨level.name :: names, levelsWithin_succ_eq_ok_iff.mpr ⟨level, symbol, found,
                stored, .inr ⟨module, .inr ⟨parent, names, scope, rest, rfl⟩⟩⟩, ?_⟩
              refine List.forall_mem_cons.mpr ⟨name, fun outer further => ?_⟩
              exact (Relation.ReflTransGen.tail name mentioned).trans (listed outer further)

theorem WellFormed.levels_eq_ok (formed : graph.WellFormed) (held : graph.Holds (.symbol id)) :
    ∃ names, graph.levels id = .ok names ∧ ∀ name ∈ names, graph.AtOrAbove id name :=
  formed.levelsWithin_eq_ok _ held (Nat.lt_succ_of_lt (formed.card_above_le held))

/-! ## Arguments -/

end LinkName.Graph

namespace LinkName.TemplateArg

/-- Whether everything that a list of arguments names has a property. -/
def Each (property : Entity → Prop) (args : List TemplateArg) : Prop :=
  ∀ leaf ∈ leavesOf args, ∀ entity ∈ leaf.named?, property entity

namespace Each

variable {property : Entity → Prop} {args : List TemplateArg}

theorem tail {first : TemplateArg} (each : Each property (first :: args)) : Each property args :=
  fun leaf listed => each leaf (List.mem_append_right _ listed)

theorem head {first : TemplateArg} (each : Each property (first :: args)) :
    ∀ entity ∈ first.named?, property entity := by
  cases first with
  | pack inner => simp [named?]
  | _ => exact each _ (List.mem_append_left _ List.mem_cons_self)

theorem of_mem {arg : TemplateArg} (each : Each property args) (listed : arg ∈ args) :
    ∀ entity ∈ arg.named?, property entity := by
  induction args with
  | nil => cases listed
  | cons first rest ih =>
      rcases List.mem_cons.mp listed with rfl | later
      · exact each.head
      · exact ih each.tail later

theorem of_pack {inner : List TemplateArg} (each : Each property (.pack inner :: args)) :
    Each property inner :=
  fun leaf listed => each leaf (List.mem_append_left _ listed)

end Each

end LinkName.TemplateArg

namespace LinkName.Graph

variable {graph : Graph} {id : SymbolId}

/-- Whether the graph holds what an argument names. -/
def HoldsArg (graph : Graph) (arg : TemplateArg) : Prop :=
  ∀ entity ∈ arg.named?, graph.Holds entity

theorem mentions_args {template : SymbolId} {args : List TemplateArg} {symbol : Symbol}
    (stored : graph.symbol id = .ok symbol) (special : symbol.sort = .specialization template args) :
    TemplateArg.Each (graph.Mentions (.symbol id)) args := by
  intro leaf listed entity named
  rw [Mentions, mentions_symbol stored, Symbol.mentions, special]
  exact List.mem_append_right _
    (List.mem_cons_of_mem _ (List.mem_filterMap.mpr ⟨leaf, listed, named⟩))

theorem WellFormed.holds_args (formed : graph.WellFormed) {template : SymbolId}
    {args : List TemplateArg} {symbol : Symbol} (stored : graph.symbol id = .ok symbol)
    (special : symbol.sort = .specialization template args) :
    TemplateArg.Each graph.Holds args :=
  fun leaf listed entity named =>
    formed.closed _ _ (mentions_args stored special leaf listed entity named)

theorem mentions_function {symbol : Symbol} {info : FunctionInfo}
    (stored : graph.symbol id = .ok symbol) (sort : symbol.sort = .function info) :
    graph.Mentions (.symbol id) (.type info.type) := by
  rw [Mentions, mentions_symbol stored, Symbol.mentions, sort]
  exact List.mem_append_right _ List.mem_cons_self

theorem mentions_variable {symbol : Symbol} {info : VariableInfo}
    (stored : graph.symbol id = .ok symbol) (sort : symbol.sort = .var info) :
    graph.Mentions (.symbol id) (.type info.type) := by
  rw [Mentions, mentions_symbol stored, Symbol.mentions, sort]
  exact List.mem_append_right _ List.mem_cons_self

end LinkName.Graph
