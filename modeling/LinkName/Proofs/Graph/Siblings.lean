import LinkName.Proofs.Graph.Scope

/-!
Symbols of one scope. Their qualified names differ in the innermost level at most, and not even there
if the scope is a specialization, which is what the level of each of its members spells.
-/
namespace LinkName.Graph

variable {graph : Graph} {id id' : SymbolId} {symbol symbol' : Symbol}

theorem scopeParent_of_member {parent : SymbolId} {outer : Symbol}
    (stored : graph.symbol id = .ok symbol) (inside : symbol.parent = some parent)
    (known : graph.symbol parent = .ok outer) (special : outer.template?.isSome) :
    graph.scopeParent id = .ok (some parent) := by
  have inner : outer.isModule = false := by
    rcases outer with ⟨ident, above, access, sort⟩
    cases sort <;> first | rfl | cases special
  exact scopeParent_eq_ok_iff.mpr
    ⟨symbol, stored, .inr ⟨parent, outer, inside, known, by rw [inner]; rfl⟩⟩

section

variable (stored : graph.symbol id = .ok symbol) (stored' : graph.symbol id' = .ok symbol')
variable (parents : symbol.parent = symbol'.parent)
include stored stored' parents

theorem level_siblings {parent template : SymbolId} {outer : Symbol}
    (inside : symbol.parent = some parent) (known : graph.symbol parent = .ok outer)
    (special : outer.template? = some template) : graph.level id = graph.level id' := by
  simp only [level, stored, stored', ← parents, inside, known, special, bind, Except.bind]

theorem levels_siblings_of_member {parent template : SymbolId} {outer : Symbol}
    (inside : symbol.parent = some parent) (known : graph.symbol parent = .ok outer)
    (special : outer.template? = some template) : graph.levels id = graph.levels id' := by
  simp only [levels, levelsWithin, level_siblings stored stored' parents inside known special]

/-- The innermost level is the symbol itself, unless it is one that symbols of the scope share. -/
theorem levels_siblings (plain : symbol.isModule = false) (plain' : symbol'.isModule = false) :
    graph.levels id = graph.levels id' ∨
      ∃ outer : Except Fault (List SymbolId), graph.levels id = (id :: ·) <$> outer ∧
        graph.levels id' = (id' :: ·) <$> outer := by
  cases inside : symbol.parent with
  | none =>
      refine .inr ⟨.ok [], ?_⟩
      simp only [levels, levelsWithin, level, stored, stored', ← parents, inside, plain, plain', bind,
        Except.bind, pure, Except.pure, Bool.false_eq_true, if_false]
      exact ⟨rfl, rfl⟩
  | some parent =>
      cases known : graph.symbol parent with
      | error fault =>
          refine .inl ?_
          simp only [levels, levelsWithin, level, stored, stored', ← parents, inside, known, bind,
            Except.bind]
      | ok outer =>
          cases special : outer.template? with
          | some template =>
              exact .inl (levels_siblings_of_member stored stored' parents inside known special)
          | none =>
              refine .inr ⟨graph.levelsWithin graph.symbols.length parent, ?_⟩
              simp only [levels, levelsWithin, level, stored, stored', ← parents, inside, known,
                special, plain, plain', bind, Except.bind, pure, Except.pure, Bool.false_eq_true,
                if_false]
              cases graph.levelsWithin graph.symbols.length parent <;> exact ⟨rfl, rfl⟩

end

end LinkName.Graph
