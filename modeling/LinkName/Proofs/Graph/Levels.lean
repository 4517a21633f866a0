import LinkName.Proofs.Graph.Siblings
import LinkName.Proofs.Graph.Template

/-!
The levels of a name, innermost first. They are found in two ways: from a symbol to its parent, as
long as there is one, or from a level to the scope around it. Both ways lead through the same levels,
but only the second one passes a member of a specialization.
-/
namespace LinkName

/-- A symbol that is neither a specialization nor a destructor. -/
def Symbol.IsOrdinary (symbol : Symbol) : Prop :=
  symbol.template? = none ∧ ∀ info, symbol.sort = .function info → info.role ≠ .destructor

namespace Graph

/-- The second symbol is the parent of the first. -/
def HasParent (graph : Graph) (id parent : SymbolId) : Prop :=
  ∃ symbol, graph.symbol id = .ok symbol ∧ symbol.parent = some parent

/-- The symbol is a direct member of a specialization. -/
def InSpecialization (graph : Graph) (id : SymbolId) : Prop :=
  ∃ parent outer, graph.HasParent id parent ∧ graph.symbol parent = .ok outer ∧
    outer.template?.isSome = true

/-- The symbol is a function with C++ linkage, or a variable in a scope. -/
def IsQualified (graph : Graph) (id : SymbolId) : Prop :=
  ∃ symbol, graph.symbol id = .ok symbol ∧
    ((∃ info signature quals, symbol.sort = .function info ∧
        graph.type info.type = .ok { form := .function signature, quals } ∧
        signature.linkage = .cpp) ∨
      ∃ info scope, symbol.sort = .var info ∧ graph.scopeParent id = .ok (some scope))

/-- No module is a member of a specialization. -/
def ModulesApart (graph : Graph) : Prop :=
  ∀ id symbol, graph.symbol id = .ok symbol → symbol.isModule = true → ¬ graph.InSpecialization id

/-- The levels of a scope: that of the scope itself, and then those of the scope around the level. -/
inductive Scopes (graph : Graph) : Option SymbolId → List SymbolId → Prop
  | outermost : Scopes graph none []
  | inner {scope : SymbolId} {level : Level} {names : List SymbolId}
      (found : graph.level scope = .ok level) (outer : Scopes graph level.scope names) :
      Scopes graph (some scope) (level.name :: names)

/-- Symbols from one up to its module, which is left out. -/
inductive Chain (graph : Graph) : SymbolId → List Symbol → Prop
  | module {id : SymbolId} {symbol : Symbol} (stored : graph.symbol id = .ok symbol)
      (isModule : symbol.isModule = true) : Chain graph id []
  | outermost {id : SymbolId} {symbol : Symbol} (stored : graph.symbol id = .ok symbol)
      (other : symbol.isModule = false) (top : symbol.parent = none) : Chain graph id [symbol]
  | inner {id parent : SymbolId} {symbol : Symbol} {chain : List Symbol}
      (stored : graph.symbol id = .ok symbol) (other : symbol.isModule = false)
      (scope : symbol.parent = some parent) (outer : Chain graph parent chain) :
      Chain graph id (symbol :: chain)

/-- Nothing from the symbol upwards is a specialization or a destructor. -/
def OrdinaryUpwards (graph : Graph) (id : SymbolId) : Prop :=
  ∀ outer symbol, Relation.ReflTransGen graph.HasParent id outer → graph.symbol outer = .ok symbol →
    symbol.IsOrdinary

variable {graph : Graph} {id : SymbolId} {symbol : Symbol} {level : Level}
variable {names : List SymbolId} {fuel : Nat}

theorem level_of_not_inSpecialization {scope : Option SymbolId}
    (stored : graph.symbol id = .ok symbol) (apart : ¬ graph.InSpecialization id)
    (found : graph.scopeParent id = .ok scope) :
    graph.level id = .ok { name := id, scope, template := none } := by
  refine level_of_apart stored (fun parent outer inside known => ?_) found
  by_contra special
  exact apart ⟨parent, outer, ⟨symbol, stored, inside⟩, known, Option.isSome_iff_ne_none.mpr special⟩

/-- The level of a member of a specialization is that of the specialization. -/
theorem level_of_inSpecialization {parent template : SymbolId} {outer : Symbol}
    {scope : Option SymbolId} (stored : graph.symbol id = .ok symbol)
    (inside : symbol.parent = some parent) (known : graph.symbol parent = .ok outer)
    (special : outer.template? = some template) (around : graph.scopeParent parent = .ok scope) :
    graph.level id = .ok { name := parent, scope, template := some template } :=
  level_eq_ok_iff.mpr ⟨symbol, stored, .inr
    ⟨parent, outer, inside, known, .inr ⟨template, scope, special, around, rfl⟩⟩⟩

/-! ## Chains -/

theorem Chain.stored {chain : List Symbol} (chained : graph.Chain id chain) :
    ∀ symbol ∈ chain, ∃ name, graph.symbol name = .ok symbol := by
  induction chained with
  | module => exact fun _ listed => absurd listed List.not_mem_nil
  | outermost stored => exact List.forall_mem_singleton.mpr ⟨_, stored⟩
  | inner stored _ _ _ ih => exact List.forall_mem_cons.mpr ⟨⟨_, stored⟩, ih⟩

namespace OrdinaryUpwards

theorem outward (ordinary : graph.OrdinaryUpwards id) {parent : SymbolId}
    (above : graph.HasParent id parent) : graph.OrdinaryUpwards parent :=
  fun outer symbol further stored => ordinary outer symbol (.head above further) stored

theorem not_inSpecialization (ordinary : graph.OrdinaryUpwards id) : ¬ graph.InSpecialization id := by
  rintro ⟨parent, outer, above, known, special⟩
  rw [(ordinary parent outer (.single above) known).1] at special
  cases special

/-- The levels of a name are those of a chain. -/
theorem chain_of_levels (ordinary : graph.OrdinaryUpwards id) (formed : graph.WellFormed)
    (held : graph.Holds (.symbol id)) (found : graph.levelsWithin fuel id = .ok names) :
    ∃ chain, graph.Chain id chain ∧
      List.Forall₂ (fun name symbol => graph.symbol name = .ok symbol ∧ symbol.IsOrdinary) names
        chain := by
  induction fuel generalizing id names with
  | zero => cases found
  | succ fuel ih =>
      obtain ⟨own, known⟩ := holds_symbol_iff.mp held
      obtain ⟨scope, around⟩ := formed.scopeParent_eq_ok held
      obtain ⟨level, symbol, leveled, stored, ends⟩ := levelsWithin_succ_eq_ok_iff.mp found
      obtain rfl := Except.ok.inj
        ((level_of_not_inSpecialization known ordinary.not_inSpecialization around).symm.trans leveled)
      have here : symbol.IsOrdinary := ordinary id symbol .refl stored
      rcases ends with ⟨module, rfl⟩ | ⟨other, ⟨top, rfl⟩ | ⟨parent, rest, above, further, rfl⟩⟩
      · exact ⟨[], .module stored module, .nil⟩
      · exact ⟨[symbol], .outermost stored other top, .cons ⟨stored, here⟩ .nil⟩
      · have heldParent := formed.closed _ _ (mentions_parent stored above)
        obtain ⟨chain, chained, each⟩ :=
          ih (ordinary.outward ⟨symbol, stored, above⟩) heldParent further
        exact ⟨symbol :: chain, .inner stored other above chained, .cons ⟨stored, here⟩ each⟩

end OrdinaryUpwards

/-! ## Scopes -/

theorem WellFormed.exists_scopes (formed : graph.WellFormed) {scope : Option SymbolId}
    (held : ∀ id ∈ scope, graph.Holds (.symbol id)) : ∃ names, graph.Scopes scope names := by
  have order := formed.order
  cases scope with
  | none => exact ⟨[], .outermost⟩
  | some id =>
      induction deep : order.rank (.symbol id) using Nat.strong_induction_on generalizing id with
      | _ rank ih =>
          obtain ⟨level, found⟩ := formed.level_eq_ok (held id rfl)
          have isLevel := isLevel_of_level found
          cases around : level.scope with
          | none => exact ⟨[level.name], .inner found (around ▸ .outermost)⟩
          | some outer =>
              have mentioned := isLevel.mentions_scope around
              have lower := (order.descends _ _ mentioned).trans_le (isLevel.rank_name_le order)
              obtain ⟨names, scopes⟩ := ih _ (deep ▸ lower) outer
                (fun _ same => Option.mem_some_iff.mp same ▸ formed.closed _ _ mentioned) rfl
              exact ⟨level.name :: names, .inner found (around ▸ scopes)⟩

/-- Scopes lie at the symbol or above it. -/
theorem Scopes.rank_le (order : graph.Order) {scope : SymbolId}
    (scopes : graph.Scopes (some scope) names) :
    ∀ name ∈ names, order.rank (.symbol name) ≤ order.rank (.symbol scope) := by
  generalize same : some scope = start at scopes
  induction scopes generalizing scope with
  | outermost => cases same
  | @inner inside level names found outer ih =>
      cases same
      have isLevel := isLevel_of_level found
      have own := isLevel.rank_name_le order
      refine List.forall_mem_cons.mpr ⟨own, fun name listed => ?_⟩
      cases around : level.scope with
      | none =>
          rw [around] at outer
          cases outer
          cases listed
      | some further =>
          have lower := order.descends _ _ (isLevel.mentions_scope around)
          exact (ih around.symm name listed).trans (lower.le.trans own)

theorem IsLevel.name_isModule (isLevel : graph.IsLevel id level) (stored : graph.symbol id = .ok symbol)
    (other : symbol.isModule = false) {named : Symbol} (known : graph.symbol level.name = .ok named) :
    named.isModule = false := by
  rcases isLevel.name with ⟨same, -⟩ | ⟨-, found, template, known', special, -⟩
  · rw [same] at known
    cases stored.symm.trans known
    exact other
  · cases known.symm.trans known'
    rcases named with ⟨ident, parent, access, sort⟩
    cases sort <;> first | rfl | cases special

theorem levelsWithin_module (apart : graph.ModulesApart) (formed : graph.WellFormed)
    (stored : graph.symbol id = .ok symbol) (module : symbol.isModule = true)
    (found : graph.levelsWithin fuel id = .ok names) : names = [] := by
  cases fuel with
  | zero => cases found
  | succ fuel =>
      obtain ⟨scope, around⟩ := formed.scopeParent_eq_ok (holds_symbol_iff.mpr ⟨symbol, stored⟩)
      obtain ⟨level, named, leveled, known, ends⟩ := levelsWithin_succ_eq_ok_iff.mp found
      obtain rfl := Except.ok.inj ((level_of_not_inSpecialization stored
        (apart id symbol stored module) around).symm.trans leveled)
      cases stored.symm.trans known
      rcases ends with ⟨-, same⟩ | ⟨other, -⟩
      · exact same
      · cases module.symm.trans other

/-- Behind the first level come those of its parent. -/
theorem levelsWithin_level {listed : List SymbolId} (leveled : graph.level id = .ok level)
    (stored : graph.symbol level.name = .ok symbol) (other : symbol.isModule = false)
    (found : graph.levelsWithin fuel id = .ok listed) :
    symbol.parent = none ∧ listed = [level.name] ∨
      ∃ parent less rest, symbol.parent = some parent ∧ graph.levelsWithin less parent = .ok rest ∧
        listed = level.name :: rest := by
  cases fuel with
  | zero => cases found
  | succ fuel =>
      obtain ⟨level', symbol', leveled', stored', ends⟩ := levelsWithin_succ_eq_ok_iff.mp found
      cases leveled.symm.trans leveled'
      cases stored.symm.trans stored'
      rcases ends with ⟨module, -⟩ | ⟨-, top | ⟨parent, rest, above, further, same⟩⟩
      · cases module.symm.trans other
      · exact .inl top
      · exact .inr ⟨parent, fuel, rest, above, further, same⟩

/-- The way through the parents passes a level and then the scopes around it. -/
theorem Scopes.eq_levelsWithin (apart : graph.ModulesApart) (formed : graph.WellFormed)
    {scope : Option SymbolId} {listed : List SymbolId} (scopes : graph.Scopes scope names)
    (leveled : graph.level id = .ok level) (around : level.scope = scope)
    (stored : graph.symbol level.name = .ok symbol) (other : symbol.isModule = false)
    (found : graph.levelsWithin fuel id = .ok listed) : listed = level.name :: names := by
  induction scopes generalizing id level symbol fuel listed with
  | outermost =>
      rcases levelsWithin_level leveled stored other found with
        ⟨-, same⟩ | ⟨parent, less, rest, above, further, rfl⟩
      · exact same
      · rcases scopeParent_cases stored (isLevel_of_level leveled).scope with
          ⟨top, -⟩ | ⟨parent', outer, above', known, ⟨module, -⟩ | ⟨-, inside⟩⟩
        · cases top.symm.trans above
        · cases above.symm.trans above'
          rw [levelsWithin_module apart formed known module further]
        · cases around.symm.trans inside
  | @inner scope next outer leveledNext _ ih =>
      rcases scopeParent_cases stored (isLevel_of_level leveled).scope with
        ⟨-, none⟩ | ⟨parent, known, above, storedParent, ⟨-, none⟩ | ⟨plain, some⟩⟩
      · cases around.symm.trans none
      · cases around.symm.trans none
      · cases around.symm.trans some
        have isLevel := isLevel_of_level leveledNext
        obtain ⟨named, storedNext⟩ := holds_symbol_iff.mp
          (isLevel.holds_name formed (holds_symbol_iff.mpr ⟨known, storedParent⟩))
        have otherNext := isLevel.name_isModule storedParent plain storedNext
        rcases levelsWithin_level leveled stored other found with
          ⟨top, -⟩ | ⟨parent', less, rest, above', further, rfl⟩
        · cases top.symm.trans above
        · cases above.symm.trans above'
          rw [ih leveledNext rfl storedNext otherNext further]

/-! ## The two ways -/

/-- Outside specializations the way through the parents passes the symbol and its scopes. -/
theorem levels_of_not_inSpecialization (apart : graph.ModulesApart) (formed : graph.WellFormed)
    {scope : Option SymbolId} {listed : List SymbolId} (stored : graph.symbol id = .ok symbol)
    (other : symbol.isModule = false) (around : graph.scopeParent id = .ok scope)
    (scopes : graph.Scopes scope names) (found : graph.levels id = .ok listed)
    (plain : ¬ graph.InSpecialization id) : listed = id :: names :=
  scopes.eq_levelsWithin apart formed (level_of_not_inSpecialization stored plain around) rfl stored
    other found

/-- A member of a specialization is not passed on the way through the parents. Where the
specialization is not a member of another one, exactly its scopes are passed. -/
theorem levels_of_inSpecialization (apart : graph.ModulesApart) (formed : graph.WellFormed)
    {scope : Option SymbolId} {listed : List SymbolId} (around : graph.scopeParent id = .ok scope)
    (scopes : graph.Scopes scope names) (found : graph.levels id = .ok listed)
    (member : graph.InSpecialization id) :
    id ∉ listed ∧
      ((∀ parent, graph.HasParent id parent → ¬ graph.InSpecialization parent) → listed = names) := by
  have order := formed.order
  obtain ⟨parent, outer, ⟨symbol, stored, inside⟩, known, special⟩ := member
  have mentioned := mentions_parent stored inside
  obtain ⟨template, special⟩ := Option.isSome_iff_exists.mp special
  obtain ⟨further, aroundParent⟩ := formed.scopeParent_eq_ok (formed.closed _ _ mentioned)
  have leveled := level_of_inSpecialization stored inside known special aroundParent
  have plain : outer.isModule = false := by
    rcases outer with ⟨ident, above, access, sort⟩
    cases sort <;> first | rfl | cases special
  have passed {beyond : List SymbolId} (scopes : graph.Scopes further beyond) :
      listed = parent :: beyond := scopes.eq_levelsWithin apart formed leveled rfl known plain found
  constructor
  · obtain ⟨beyond, scopes'⟩ := formed.exists_scopes fun scope (same : further = some scope) =>
      formed.closed _ _ (mentions_scopeParent (same ▸ aroundParent))
    have lower := order.descends _ _ mentioned
    rw [passed scopes']
    intro listedAgain
    rcases List.mem_cons.mp listedAgain with rfl | beyond
    · exact lt_irrefl _ lower
    · cases further with
      | none =>
          cases scopes'
          cases beyond
      | some scope =>
          have below := order.descends _ _ (mentions_scopeParent aroundParent)
          exact absurd (scopes'.rank_le order id beyond) (not_le.mpr (below.trans lower))
  · intro outermost
    have own := level_of_not_inSpecialization known (outermost parent ⟨symbol, stored, inside⟩)
      aroundParent
    cases around.symm.trans (scopeParent_of_member stored inside known (by rw [special]; rfl))
    cases scopes with
    | inner found' outer' =>
        cases own.symm.trans found'
        exact passed outer'

end Graph

end LinkName
