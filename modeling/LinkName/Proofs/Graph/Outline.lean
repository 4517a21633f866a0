import LinkName.Proofs.Graph.Scope

/-!
What the levels of a name are read from. Two graphs whose symbols have the same parents, the same
modules among them and the same specializations have the same scopes and the same levels under every
handle, and none under the same ones.
-/
namespace LinkName

/-- What a symbol is to the scopes around it and inside it. -/
structure Outline where
  parent : Option SymbolId
  isModule : Bool
  /-- The template that it is a specialization of. -/
  template : Option SymbolId

namespace Symbol

def outline (symbol : Symbol) : Outline where
  parent := symbol.parent
  isModule := symbol.isModule
  template := symbol.template?

variable {symbol symbol' : Symbol}

theorem outline_eq_iff : symbol.outline = symbol'.outline ↔
    symbol.parent = symbol'.parent ∧ symbol.isModule = symbol'.isModule ∧
      symbol.template? = symbol'.template? := by
  simp [outline]

end Symbol

namespace Graph

variable {graph graph' : Graph}

/-- Symbols that are related one by one are found under the same handles. -/
theorem symbol_of_forall₂ {relates : Symbol → Symbol → Prop} {id : SymbolId} {found : Symbol}
    (related : List.Forall₂ relates graph.symbols graph'.symbols)
    (stored : graph.symbol id = .ok found) :
    ∃ found', graph'.symbol id = .ok found' ∧ relates found found' := by
  rw [symbol_eq_ok_iff, List.getElem?_eq_some_iff] at stored
  obtain ⟨inside, rfl⟩ := stored
  have inside' : id.index < graph'.symbols.length := related.length_eq ▸ inside
  exact ⟨graph'.symbols[id.index], symbol_eq_ok_iff.mpr (List.getElem?_eq_getElem inside'),
    related.get inside inside'⟩

def SameOutline (graph graph' : Graph) : Prop :=
  graph.symbols.map Symbol.outline = graph'.symbols.map Symbol.outline

namespace SameOutline

theorem of_forall₂ {relates : Symbol → Symbol → Prop}
    (related : List.Forall₂ relates graph.symbols graph'.symbols)
    (same : ∀ symbol symbol', relates symbol symbol' → symbol.outline = symbol'.outline) :
    graph.SameOutline graph' := by
  unfold SameOutline
  rw [← List.forall₂_eq_eq_eq, List.forall₂_map_left_iff, List.forall₂_map_right_iff]
  exact related.imp same

variable (same : graph.SameOutline graph')
include same

theorem length_eq : graph.symbols.length = graph'.symbols.length := by
  simpa using congrArg List.length same

theorem holds_iff {id : SymbolId} : graph.Holds (.symbol id) ↔ graph'.Holds (.symbol id) := by
  unfold Holds
  rw [same.length_eq]

/-- A handle is missing from both graphs, or leads to symbols with the same outline. -/
theorem symbol_cases (id : SymbolId) :
    (∃ found found', graph.symbol id = .ok found ∧ graph'.symbol id = .ok found' ∧
      found.parent = found'.parent ∧ found.isModule = found'.isModule ∧
      found.template? = found'.template?) ∨
    graph.symbol id = .error (.noSymbol id) ∧ graph'.symbol id = .error (.noSymbol id) := by
  have at_id : graph.symbols[id.index]?.map Symbol.outline =
      graph'.symbols[id.index]?.map Symbol.outline := by
    rw [← List.getElem?_map, ← List.getElem?_map, same]
  unfold Graph.symbol
  cases found : graph.symbols[id.index]? with
  | none => cases found' : graph'.symbols[id.index]? <;> simp_all
  | some symbol =>
      cases found' : graph'.symbols[id.index]? with
      | none => simp_all
      | some symbol' =>
          rw [found, found', Option.map_some, Option.map_some, Option.some.injEq] at at_id
          exact .inl ⟨symbol, symbol', rfl, rfl, Symbol.outline_eq_iff.mp at_id⟩

theorem symbol_error {id : SymbolId} {fault : Fault} (missing : graph.symbol id = .error fault) :
    graph'.symbol id = .error fault := by
  rcases same.symbol_cases id with ⟨found, -, stored, -⟩ | ⟨none, none'⟩
  · cases missing.symm.trans stored
  · rw [none', ← none, missing]

theorem scopeParent_eq (id : SymbolId) : graph.scopeParent id = graph'.scopeParent id := by
  unfold scopeParent
  rcases same.symbol_cases id with ⟨found, found', stored, stored', parents, -, -⟩ | ⟨none, none'⟩
  · simp only [stored, stored', parents, bind, Except.bind]
    cases found'.parent with
    | none => rfl
    | some parent =>
        rcases same.symbol_cases parent with
          ⟨outer, outer', known, known', -, module, -⟩ | ⟨none, none'⟩
        · simp only [known, known', module]
        · simp only [none, none']
  · rw [none, none']
    rfl

theorem level_eq (id : SymbolId) : graph.level id = graph'.level id := by
  unfold level
  rcases same.symbol_cases id with ⟨found, found', stored, stored', parents, -, -⟩ | ⟨none, none'⟩
  · simp only [stored, stored', parents, bind, Except.bind]
    cases found'.parent with
    | none => rfl
    | some parent =>
        rcases same.symbol_cases parent with
          ⟨outer, outer', known, known', -, module, special⟩ | ⟨none, none'⟩
        · simp only [known, known', module, special, same.scopeParent_eq]
        · simp only [none, none']
  · rw [none, none']
    rfl

theorem levelsWithin_eq (fuel : Nat) (id : SymbolId) :
    graph.levelsWithin fuel id = graph'.levelsWithin fuel id := by
  induction fuel generalizing id with
  | zero => rfl
  | succ fuel ih =>
      simp only [levelsWithin, same.level_eq, ih]
      cases graph'.level id with
      | error fault => rfl
      | ok level =>
          simp only [bind, Except.bind]
          rcases same.symbol_cases level.name with
            ⟨found, found', stored, stored', parents, module, -⟩ | ⟨none, none'⟩
          · simp only [stored, stored', parents, module]
          · simp only [none, none']

theorem levels_eq (id : SymbolId) : graph.levels id = graph'.levels id := by
  unfold levels
  rw [same.length_eq, same.levelsWithin_eq]

end SameOutline

end Graph

end LinkName
