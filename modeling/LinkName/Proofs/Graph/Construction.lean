import LinkName.Proofs.Graph.Order

/-!
Graphs built step by step, each step naming only what was added before it. Such graphs are
well-formed, and a specialization in them has the name and the scope of its template.
-/
namespace LinkName.Graph

/-- The graphs that a sequence of additions leads to. A member may be given to a template at any
time, and so may any symbol its access. -/
inductive Built : Graph → Prop where
  | empty : Built {}
  | addSymbol {graph : Graph} {symbol : Symbol} (built : Built graph)
      (earlier : ∀ mention ∈ symbol.mentions, graph.Holds mention)
      (member : ∀ id, symbol.sort = .template (some id) → graph.Holds (.symbol id))
      (general : symbol.template? = none) : Built (graph.addSymbol symbol).2
  | specialize {graph next : Graph} {id template : SymbolId} {args : List TemplateArg}
      (built : Built graph)
      (earlier : ∀ mention ∈ (TemplateArg.leavesOf args).filterMap TemplateArg.named?,
        graph.Holds mention)
      (added : graph.specialize template args = .ok (id, next)) : Built next
  | setMember {graph : Graph} {template member : SymbolId} (built : Built graph)
      (held : graph.Holds (.symbol member)) : Built (graph.setMember template member)
  | setAccess {graph : Graph} {id : SymbolId} {access : Access} (built : Built graph) :
      Built (graph.setAccess id access)
  | internType {graph : Graph} {node : TypeNode} (built : Built graph)
      (earlier : ∀ mention ∈ node.form.mentions, graph.Holds mention) :
      Built (graph.internType node).2

/-- Every specialization has the name and the scope of its template. -/
def CopiesTemplates (graph : Graph) : Prop :=
  ∀ id symbol template, graph.symbol id = .ok symbol → symbol.template? = some template →
    ∃ general, graph.symbol template = .ok general ∧
      general.ident = symbol.ident ∧ general.parent = symbol.parent

/-- What every step of a construction keeps. -/
structure Sound (graph : Graph) : Prop where
  closed : ∀ entity, ∀ mention ∈ graph.mentions entity, graph.Holds mention
  members : ∀ symbol ∈ graph.symbols, ∀ member,
    symbol.sort = .template (some member) → graph.Holds (.symbol member)
  ranked : Nonempty graph.Order
  shared : graph.types.Nodup
  copies : graph.CopiesTemplates

variable {graph : Graph}

theorem Order.acyclic (order : graph.Order) (entity : Entity) :
    ¬ Relation.TransGen graph.Mentions entity entity := by
  have falls : ∀ {first last}, Relation.TransGen graph.Mentions first last →
      order.rank last < order.rank first := by
    intro first last path
    induction path with
    | single mentioned => exact order.descends _ _ mentioned
    | tail _ mentioned ih => exact (order.descends _ _ mentioned).trans ih
  intro cycle
  exact Nat.lt_irrefl _ (falls cycle)

theorem Sound.wellFormed (sound : graph.Sound) : graph.WellFormed where
  closed := sound.closed
  members := sound.members
  acyclic := sound.ranked.some.acyclic
  shared := sound.shared

/-! ## One new entity -/

/-- `next` has one entity more than `graph`, which mentions only what was there before. -/
structure Grows (graph next : Graph) (fresh : Entity) : Prop where
  holds_iff : ∀ entity, next.Holds entity ↔ graph.Holds entity ∨ entity = fresh
  count_lt : graph.symbols.length + graph.types.length < next.symbols.length + next.types.length
  unheld : ¬ graph.Holds fresh
  mentions_old : ∀ entity, entity ≠ fresh → next.mentions entity = graph.mentions entity
  earlier : ∀ mention ∈ next.mentions fresh, graph.Holds mention

namespace Grows

variable {next : Graph} {fresh : Entity}

theorem holds_mention (grows : Grows graph next fresh) (sound : graph.Sound) {entity mention : Entity}
    (mentioned : mention ∈ next.mentions entity) : graph.Holds mention := by
  by_cases new : entity = fresh
  · subst new
    exact grows.earlier mention mentioned
  · rw [grows.mentions_old entity new] at mentioned
    exact sound.closed entity mention mentioned

theorem closed (grows : Grows graph next fresh) (sound : graph.Sound) :
    ∀ entity, ∀ mention ∈ next.mentions entity, next.Holds mention := by
  intro entity mention mentioned
  exact (grows.holds_iff mention).mpr (.inl (grows.holds_mention sound mentioned))

/-- The new entity is ranked above all others. -/
def order (grows : Grows graph next fresh) (sound : graph.Sound) (order : graph.Order) :
    next.Order where
  rank entity :=
    if entity = fresh then graph.symbols.length + graph.types.length else order.rank entity
  rank_lt entity held := by
    split
    · exact grows.count_lt
    · next old =>
      have kept := ((grows.holds_iff entity).mp held).resolve_right old
      exact (order.rank_lt entity kept).trans grows.count_lt
  descends entity mention mentioned := by
    have kept := grows.holds_mention sound mentioned
    have old : mention ≠ fresh := fun same => grows.unheld (same ▸ kept)
    rw [if_neg old]
    split
    · exact order.rank_lt mention kept
    · next older =>
      unfold Mentions at mentioned
      rw [grows.mentions_old entity older] at mentioned
      exact order.descends entity mention mentioned

end Grows

theorem symbol_addSymbol_of_ne {symbol : Symbol} {id : SymbolId}
    (old : id.index ≠ graph.symbols.length) :
    (graph.addSymbol symbol).2.symbols[id.index]? = graph.symbols[id.index]? := by
  simp only [addSymbol]
  by_cases inside : id.index < graph.symbols.length
  · rw [List.getElem?_append_left inside]
  · rw [List.getElem?_eq_none (by simp; omega), List.getElem?_eq_none (by omega)]

theorem grows_addSymbol {symbol : Symbol}
    (earlier : ∀ mention ∈ symbol.mentions, graph.Holds mention) :
    Grows graph (graph.addSymbol symbol).2 (.symbol ⟨graph.symbols.length⟩) where
  holds_iff entity := by
    rcases entity with ⟨⟨index⟩⟩ | ⟨⟨index⟩⟩
    · simp [Holds, addSymbol]
      omega
    · simp [Holds, addSymbol]
  count_lt := by simp [addSymbol]
  unheld := by simp [Holds]
  mentions_old entity old := by
    cases entity with
    | symbol id =>
        have other : id.index ≠ graph.symbols.length := fun same => old (by cases id; simp_all)
        simp [mentions, symbol_addSymbol_of_ne other]
    | type id => simp [mentions, addSymbol]
  earlier := by simpa [mentions, addSymbol] using earlier

theorem grows_internType {node : TypeNode} (fresh : graph.findType? node = none)
    (earlier : ∀ mention ∈ node.form.mentions, graph.Holds mention) :
    Grows graph (graph.internType node).2 (.type ⟨graph.types.length⟩) where
  holds_iff entity := by
    rcases entity with ⟨⟨index⟩⟩ | ⟨⟨index⟩⟩
    · simp [Holds, internType, fresh]
    · simp [Holds, internType, fresh]
      omega
  count_lt := by simp [internType, fresh]
  unheld := by simp [Holds]
  mentions_old entity old := by
    cases entity with
    | symbol id => simp [mentions, internType, fresh]
    | type id =>
        have other : id.index ≠ graph.types.length := fun same => old (by cases id; simp_all)
        simp only [mentions, internType, fresh]
        by_cases inside : id.index < graph.types.length
        · rw [List.getElem?_append_left inside]
        · rw [List.getElem?_eq_none (by simp; omega), List.getElem?_eq_none (by omega)]
  earlier := by simpa [mentions, internType, fresh] using earlier

/-! ## What each step keeps -/

/-- A new symbol leaves the older ones as they are. -/
theorem symbol_addSymbol {symbol found : Symbol} {id : SymbolId}
    (stored : graph.symbol id = .ok found) : (graph.addSymbol symbol).2.symbol id = .ok found := by
  have inside := holds_symbol_iff.mpr ⟨found, stored⟩
  rw [symbol_eq_ok_iff] at stored ⊢
  rw [symbol_addSymbol_of_ne (Nat.ne_of_lt inside), stored]

theorem copiesTemplates_addSymbol {symbol : Symbol} (copies : graph.CopiesTemplates)
    (copy : ∀ template, symbol.template? = some template →
      ∃ general, graph.symbol template = .ok general ∧
        general.ident = symbol.ident ∧ general.parent = symbol.parent) :
    (graph.addSymbol symbol).2.CopiesTemplates := by
  intro id found template stored special
  by_cases last : id.index = graph.symbols.length
  · have same : symbol = found := by
      simpa [symbol_eq_ok_iff, addSymbol, last] using stored
    subst same
    obtain ⟨general, known, copied⟩ := copy template special
    exact ⟨general, symbol_addSymbol known, copied⟩
  · rw [symbol_eq_ok_iff, symbol_addSymbol_of_ne last, ← symbol_eq_ok_iff] at stored
    obtain ⟨general, known, copied⟩ := copies id found template stored special
    exact ⟨general, symbol_addSymbol known, copied⟩

theorem Sound.addSymbol {symbol : Symbol} (sound : graph.Sound)
    (earlier : ∀ mention ∈ symbol.mentions, graph.Holds mention)
    (member : ∀ id, symbol.sort = .template (some id) → graph.Holds (.symbol id))
    (copy : ∀ template, symbol.template? = some template →
      ∃ general, graph.symbol template = .ok general ∧
        general.ident = symbol.ident ∧ general.parent = symbol.parent) :
    (graph.addSymbol symbol).2.Sound where
  closed := (grows_addSymbol earlier).closed sound
  members found listed id stored := by
    refine ((grows_addSymbol earlier).holds_iff _).mpr (.inl ?_)
    rcases List.mem_append.mp listed with older | newest
    · exact sound.members found older id stored
    · rw [List.mem_singleton.mp newest] at stored
      exact member id stored
  ranked := sound.ranked.map ((grows_addSymbol earlier).order sound)
  shared := sound.shared
  copies := copiesTemplates_addSymbol sound.copies copy

/-- The type nodes of a graph after an addition. -/
theorem types_internType (graph : Graph) (node : TypeNode) :
    (graph.internType node).2.types =
      if node ∈ graph.types then graph.types else graph.types ++ [node] := by
  unfold internType findType?
  split
  · next id found =>
    rw [Option.map_eq_some_iff] at found
    obtain ⟨index, known, -⟩ := found
    rw [Index.find?_eq] at known
    obtain ⟨inside, same, -⟩ := List.idxOf?_eq_some_iff.mp known
    rw [if_pos (List.mem_of_getElem same)]
  · next missing =>
    rw [Option.map_eq_none_iff, Index.find?_eq, List.idxOf?_eq_none_iff] at missing
    rw [if_neg missing]

theorem symbols_internType (graph : Graph) (node : TypeNode) :
    (graph.internType node).2.symbols = graph.symbols := by
  unfold internType
  split <;> rfl

theorem Sound.internType {node : TypeNode} (sound : graph.Sound)
    (earlier : ∀ mention ∈ node.form.mentions, graph.Holds mention) :
    (graph.internType node).2.Sound := by
  cases fresh : graph.findType? node with
  | some id => simpa [Graph.internType, fresh] using sound
  | none =>
      have unlisted : node ∉ graph.types := by simpa [findType?] using fresh
      have symbols := symbols_internType graph node
      exact {
        closed := (grows_internType fresh earlier).closed sound
        members := fun found listed id stored =>
          ((grows_internType fresh earlier).holds_iff _).mpr
            (.inl (sound.members found (symbols ▸ listed) id stored))
        ranked := sound.ranked.map ((grows_internType fresh earlier).order sound)
        shared := by
          rw [types_internType, if_neg unlisted]
          simp only [List.nodup_append, List.mem_singleton]
          refine ⟨sound.shared, List.nodup_singleton node, ?_⟩
          rintro other listed _ rfl rfl
          exact unlisted listed
        copies := by simpa [CopiesTemplates, symbol_eq_ok_iff, symbols] using sound.copies }

/-- A change that keeps the name, the scope and all that is mentioned. -/
structure Keeps (change : Symbol → Symbol) : Prop where
  ident : ∀ symbol, (change symbol).ident = symbol.ident
  parent : ∀ symbol, (change symbol).parent = symbol.parent
  sort : ∀ symbol, (change symbol).sort.mentions = symbol.sort.mentions
  template : ∀ symbol, (change symbol).template? = symbol.template?

theorem symbol_modifySymbol {id : SymbolId} (other : SymbolId) {change : Symbol → Symbol} :
    (graph.modifySymbol id change).symbols[other.index]? =
      (graph.symbols[other.index]?).map
        (if id.index = other.index then change else fun symbol => symbol) := by
  simp [modifySymbol, List.getElem?_modify]
  split <;> simp_all

theorem mentions_modifySymbol {id : SymbolId} {change : Symbol → Symbol} (keeps : Keeps change)
    (entity : Entity) : (graph.modifySymbol id change).mentions entity = graph.mentions entity := by
  cases entity with
  | type other => rfl
  | symbol other =>
      simp only [mentions, symbol_modifySymbol, Option.map_map]
      congr 2
      funext symbol
      simp only [Function.comp_apply]
      split
      · simp [Symbol.mentions, keeps.parent, keeps.sort]
      · rfl

theorem holds_modifySymbol {id : SymbolId} {change : Symbol → Symbol} {entity : Entity} :
    (graph.modifySymbol id change).Holds entity ↔ graph.Holds entity := by
  cases entity <;> simp [Holds, modifySymbol]

theorem Sound.modifySymbol {id : SymbolId} {change : Symbol → Symbol} (sound : graph.Sound)
    (keeps : Keeps change)
    (member : ∀ symbol held, (change symbol).sort = .template (some held) →
      symbol.sort = .template (some held) ∨ graph.Holds (.symbol held)) :
    (graph.modifySymbol id change).Sound where
  closed entity mention mentioned := by
    rw [mentions_modifySymbol keeps] at mentioned
    exact holds_modifySymbol.mpr (sound.closed entity mention mentioned)
  members found listed held stored := by
    refine holds_modifySymbol.mpr ?_
    obtain ⟨index, at_index⟩ := List.mem_iff_getElem?.mp listed
    rw [symbol_modifySymbol ⟨index⟩, Option.map_eq_some_iff] at at_index
    obtain ⟨symbol, known, changed⟩ := at_index
    have listed := List.mem_of_getElem? known
    split at changed
    · rw [← changed] at stored
      rcases member symbol held stored with kept | held
      · exact sound.members symbol listed _ kept
      · exact held
    · rw [← changed] at stored
      exact sound.members symbol listed _ stored
  ranked := sound.ranked.map fun order =>
    { rank := order.rank
      rank_lt := fun entity held => by
        simpa [Graph.modifySymbol] using order.rank_lt entity (holds_modifySymbol.mp held)
      descends := fun entity mention mentioned => by
        unfold Mentions at mentioned
        rw [mentions_modifySymbol keeps] at mentioned
        exact order.descends entity mention mentioned }
  shared := sound.shared
  copies other found template stored special := by
    rw [symbol_eq_ok_iff, symbol_modifySymbol, Option.map_eq_some_iff] at stored
    obtain ⟨symbol, known, changed⟩ := stored
    have alike : ∀ symbol : Symbol, ∀ index : Nat,
        let changed := (if id.index = index then change else fun symbol => symbol) symbol
        changed.ident = symbol.ident ∧ changed.parent = symbol.parent ∧
          changed.template? = symbol.template? := by
      intro symbol index
      dsimp only
      split
      · exact ⟨keeps.ident symbol, keeps.parent symbol, keeps.template symbol⟩
      · exact ⟨rfl, rfl, rfl⟩
    obtain ⟨ident, parent, same⟩ := alike symbol other.index
    rw [changed] at ident parent same
    obtain ⟨general, stored, name, scope⟩ :=
      sound.copies other symbol template (symbol_eq_ok_iff.mpr known) (same ▸ special)
    obtain ⟨generalIdent, generalParent, -⟩ := alike general template.index
    refine ⟨_, symbol_eq_ok_iff.mpr ?_, generalIdent.trans (name.trans ident.symm),
      generalParent.trans (scope.trans parent.symm)⟩
    rw [symbol_modifySymbol, symbol_eq_ok_iff.mp stored]
    rfl

theorem sound_empty : ({} : Graph).Sound where
  closed entity mention mentioned := by cases entity <;> simp [mentions] at mentioned
  members := by simp
  ranked := ⟨{
    rank := fun _ => 0
    rank_lt := fun entity held => by cases entity <;> simp [Holds] at held
    descends := fun entity mention mentioned => by
      cases entity <;> simp [Mentions, mentions] at mentioned }⟩
  shared := List.nodup_nil
  copies id symbol template stored := by simp [symbol_eq_ok_iff] at stored

theorem Built.sound (built : graph.Built) : graph.Sound := by
  induction built with
  | empty => exact sound_empty
  | addSymbol _ earlier member general ih =>
      exact ih.addSymbol earlier member fun template special => by simp [general] at special
  | @specialize graph next id template args _ earlier added ih =>
      unfold Graph.specialize at added
      cases known : graph.symbol template with
      | error fault => simp [known, bind, Except.bind] at added
      | ok general =>
          simp only [known, bind, Except.bind, pure, Except.pure, Except.ok.injEq] at added
          obtain rfl : _ = next := congrArg Prod.snd added
          have mentioned := mentions_symbol known
          refine ih.addSymbol ?_ (by simp) ?_
          · intro mention listed
            rcases List.mem_append.mp listed with scope | listed
            · refine ih.closed (.symbol template) mention ?_
              rw [mentioned]
              exact List.mem_append_left _ scope
            · rcases List.mem_cons.mp listed with self | named
              · rw [self]
                exact holds_symbol_iff.mpr ⟨general, known⟩
              · exact earlier mention named
          · intro other special
            have same : template = other := by simpa [Symbol.template?] using special
            exact ⟨general, same ▸ known, rfl, rfl⟩
  | @setMember graph template member _ held ih =>
      refine ih.modifySymbol ?_ ?_
      · constructor <;> intro symbol <;> split <;>
          simp_all [SymbolSort.mentions, Symbol.template?]
      · intro symbol other stored
        split at stored
        · cases stored
          exact .inr held
        · exact .inl stored
  | setAccess _ ih =>
      exact ih.modifySymbol ⟨fun _ => rfl, fun _ => rfl, fun _ => rfl, fun _ => rfl⟩
        fun _ _ stored => .inl stored
  | internType _ earlier ih => exact ih.internType earlier

theorem Built.wellFormed (built : graph.Built) : graph.WellFormed := built.sound.wellFormed

/-! ## Constructions as lists of steps -/

/-- One step of a construction. -/
inductive Step where
  | symbol (symbol : Symbol)
  | specialization (template : SymbolId) (args : List TemplateArg)
  | member (template member : SymbolId)
  | access (id : SymbolId) (access : Access)
  | type (node : TypeNode)

/-- The graph after a step that names only what the graph holds. -/
def take? (graph : Graph) : Step → Option Graph
  | .symbol symbol =>
    if (∀ mention ∈ symbol.mentions, graph.Holds mention) ∧ symbol.template? = none ∧
        ∀ member ∈ symbol.member?, graph.Holds (.symbol member) then
      some (graph.addSymbol symbol).2
    else none
  | .specialization template args =>
    if ∀ mention ∈ (TemplateArg.leavesOf args).filterMap TemplateArg.named?, graph.Holds mention then
      (graph.specialize template args).toOption.map Prod.snd
    else none
  | .member template member =>
    if graph.Holds (.symbol member) then some (graph.setMember template member) else none
  | .access id access => some (graph.setAccess id access)
  | .type node =>
    if ∀ mention ∈ node.form.mentions, graph.Holds mention then some (graph.internType node).2
    else none

def takeAll? (steps : List Step) : Option Graph := steps.foldlM take? {}

theorem Built.take {step : Step} {next : Graph} (built : graph.Built)
    (taken : graph.take? step = some next) : next.Built := by
  cases step with
  | symbol symbol =>
      obtain ⟨⟨earlier, general, member⟩, same⟩ := Option.ite_none_right_eq_some.mp taken
      obtain rfl := Option.some.inj same
      refine built.addSymbol earlier (fun id sort => member id ?_) general
      rw [Symbol.member?, sort]
      rfl
  | specialization template args =>
      obtain ⟨earlier, taken⟩ := Option.ite_none_right_eq_some.mp taken
      cases added : graph.specialize template args with
      | error fault => simp [added, Except.toOption] at taken
      | ok result =>
          simp only [added, Except.toOption, Option.map_some, Option.some.injEq] at taken
          exact taken ▸ built.specialize earlier added
  | member template member =>
      obtain ⟨held, same⟩ := Option.ite_none_right_eq_some.mp taken
      exact Option.some.inj same ▸ built.setMember held
  | access id access =>
      exact Option.some.inj taken ▸ built.setAccess
  | type node =>
      obtain ⟨earlier, same⟩ := Option.ite_none_right_eq_some.mp taken
      exact Option.some.inj same ▸ built.internType earlier

theorem built_of_takeAll? (steps : List Step) (taken : takeAll? steps = some graph) :
    graph.Built := by
  have follow : ∀ {first : Graph}, first.Built → steps.foldlM take? first = some graph →
      graph.Built := by
    clear taken
    induction steps with
    | nil => exact fun built same => Option.some.inj same ▸ built
    | cons step rest ih =>
        intro first built taken
        obtain ⟨next, stepped, further⟩ := Option.bind_eq_some_iff.mp taken
        exact ih (built.take stepped) further
  exact follow .empty taken

end LinkName.Graph
