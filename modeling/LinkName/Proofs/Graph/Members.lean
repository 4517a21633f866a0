import LinkName.Proofs.Graph.Template
import LinkName.Proofs.Type.Weight

/-!
Members of specializations. Where a specialization holds only records and enumerations, each of them
stands for it in a name, so that no scope which a name mentions is a specialization itself.
-/
namespace LinkName

namespace Graph

/-- What lies directly in a specialization is a record or an enumeration. -/
def SpecializationsHoldTypes (graph : Graph) : Prop :=
  ∀ id symbol parent outer, graph.symbol id = .ok symbol → symbol.parent = some parent →
    graph.symbol parent = .ok outer → outer.template?.isSome →
      (∃ kind, symbol.sort = .record kind) ∨ symbol.sort = .enumeration

/-- No class is const where it is used by reference. -/
def ClassesMutable (graph : Graph) : Prop :=
  ∀ id symbol quals, graph.type id = .ok { form := .classRef symbol, quals } → quals.isConst = false

/-- Whether the symbol can be named without giving away that it is a specialization: it is none or
has no scope. -/
def Unwrapped (graph : Graph) (id : SymbolId) : Prop :=
  ∀ symbol, graph.symbol id = .ok symbol → symbol.template?.isSome → graph.scopeParent id = .ok none

/-- No type names a specialization in a scope; types name its member instead. -/
def NamesMembers (graph : Graph) : Prop :=
  ∀ id node symbol, graph.type id = .ok node → node.form.symbol? = some symbol →
    graph.Unwrapped symbol

/-- Whether the symbol is something other than a specialization. -/
def General (graph : Graph) (id : SymbolId) : Prop :=
  ∀ symbol, graph.symbol id = .ok symbol → symbol.template? = none

theorem General.unwrapped {graph : Graph} {id : SymbolId} (general : graph.General id) :
    graph.Unwrapped id := by
  intro symbol stored special
  rw [general symbol stored] at special
  cases special

variable {graph : Graph} {id outer : SymbolId} {symbol : Symbol}

theorem SpecializationsHoldTypes.templatesApart (types : graph.SpecializationsHoldTypes) :
    graph.TemplatesApart := by
  intro id symbol member parent outer stored sort inside known
  cases special : outer.template? with
  | none => rfl
  | some template =>
      have kind := types id symbol parent outer stored inside known (by simp [special])
      simp [sort] at kind

theorem parent_of_scopeParent (stored : graph.symbol id = .ok symbol)
    (found : graph.scopeParent id = .ok (some outer)) : symbol.parent = some outer := by
  rcases scopeParent_cases stored found with
    ⟨-, ⟨⟩⟩ | ⟨parent, _, inside, -, ⟨-, ⟨⟩⟩ | ⟨-, ⟨⟩⟩⟩
  exact inside

/-- The scope of anything but a record or an enumeration is no specialization. -/
theorem SpecializationsHoldTypes.general_scope (types : graph.SpecializationsHoldTypes)
    (stored : graph.symbol id = .ok symbol) (found : graph.scopeParent id = .ok (some outer))
    (record : ∀ kind, symbol.sort ≠ .record kind) (enumeration : symbol.sort ≠ .enumeration) :
    graph.General outer := by
  intro around known
  by_contra special
  rcases types id symbol outer around stored (parent_of_scopeParent stored found) known
    (Option.isSome_iff_ne_none.mpr special) with ⟨kind, same⟩ | same
  · exact record kind same
  · exact enumeration same

/-- A level that is not spelled through a specialization does not lie in one. -/
theorem general_scope_of_level {level : Level} (found : graph.level id = .ok level)
    (plain : level.template = none) (scope : level.scope = some outer) : graph.General outer := by
  intro around known
  obtain ⟨symbol, stored, ⟨-, rfl⟩ | ⟨parent, between, inside, stored', ends⟩⟩ :=
    level_eq_ok_iff.mp found
  · cases scope
  · rcases ends with ⟨special, rfl⟩ | ⟨template, around, -, -, rfl⟩
    · obtain ⟨-, rfl⟩ : between.isModule = false ∧ parent = outer := by simpa using scope
      exact Except.ok.inj (stored'.symm.trans known) ▸ special
    · cases plain

/-- No level has a specialization as its scope. -/
theorem SpecializationsHoldTypes.general_level (types : graph.SpecializationsHoldTypes)
    (proper : graph.ProperTemplates) {level : Level} (found : graph.level id = .ok level)
    (scope : level.scope = some outer) : graph.General outer := by
  have isLevel := isLevel_of_level found
  rcases isLevel.name with ⟨-, plain⟩ | ⟨-, symbol, template, stored, special, -⟩
  · exact general_scope_of_level found plain scope
  · obtain ⟨general, member, known, sort, -, same⟩ := proper.general_eq stored special
    refine types.general_scope known (same.trans (scope ▸ isLevel.scope)) ?_ ?_ <;> simp [sort]

end Graph

/-! ## Types -/

namespace TypeTree

/-- Whether a const class by reference is part of the type. -/
def hasConstClass : TypeTree → Bool :=
  fold
    { basic := fun _ _ => false
      layer := fun _ inner _ => inner
      named := fun naming _ quals => naming == .classRef && quals.isConst
      assocArray := fun key value _ => key || value
      function := fun result params _ _ => result || params.any Prod.snd }

theorem hasConstClass_function {result : TypeTree} {params : List (Passing × TypeTree)}
    {convention : Convention} {quals : Qualifiers} :
    (function result params convention quals).hasConstClass = false ↔
      result.hasConstClass = false ∧ ∀ param ∈ params, param.2.hasConstClass = false := by
  simp [hasConstClass, fold_function, Bool.or_eq_false_iff]

theorem hasConstClass_withoutConst (tree : TypeTree) :
    tree.withoutConst.hasConstClass = tree.hasConstClass := by
  unfold withoutConst
  split
  · next drops =>
    cases tree with
    | named naming symbol quals => cases naming <;> first | rfl | cases drops
    | _ => rfl
  · rfl

theorem hasConstClass_passed (param : Passing × TypeTree) :
    (passed param).hasConstClass = param.2.hasConstClass := by
  rcases param with ⟨passing, type⟩
  cases passing
  case lazy =>
    have thunk : (function type [] {} {}).hasConstClass = type.hasConstClass := by
      simp [hasConstClass, fold_function]
    exact thunk
  all_goals rfl

theorem hasConstClass_returned (convention : Convention) (result : TypeTree) :
    (returned convention result).hasConstClass = result.hasConstClass := by
  unfold returned
  split <;> rfl

end TypeTree

namespace Graph

variable {graph : Graph} {id : TypeId}

theorem ClassesMutable.hasConstClass_tree (classes : graph.ClassesMutable)
    (formed : graph.WellFormed) (held : graph.Holds (.type id)) :
    (graph.tree id).hasConstClass = false := by
  refine formed.type_induction (motive := fun id => (graph.tree id).hasConstClass = false) ?_ held
  intro id node found _ _ ih
  rw [formed.tree_eq found]
  rcases node with ⟨form, quals⟩
  cases form with
  | basic | typedef | record | enumeration => rfl
  | classRef symbol => exact classes id symbol quals found
  | assocArray key value =>
      exact Bool.or_eq_false_iff.mpr
        ⟨ih key (by simp [TypeForm.parts]), ih value (by simp [TypeForm.parts])⟩
  | function signature =>
      refine TypeTree.hasConstClass_function.mpr ⟨ih _ List.mem_cons_self, fun param listed => ?_⟩
      obtain ⟨original, known, rfl⟩ := List.mem_map.mp listed
      exact ih _ (List.mem_cons_of_mem _ (List.mem_map_of_mem known))
  | _ => exact ih _ List.mem_cons_self

theorem NamesMembers.unwrapped_tree (members : graph.NamesMembers) (formed : graph.WellFormed)
    (held : graph.Holds (.type id)) : ∀ symbol ∈ (graph.tree id).symbols, graph.Unwrapped symbol := by
  refine formed.type_induction (motive := fun id =>
    ∀ symbol ∈ (graph.tree id).symbols, graph.Unwrapped symbol) ?_ held
  intro id node found _ _ ih symbol listed
  rw [formed.tree_eq found, TypeNode.mem_symbols_tree] at listed
  rcases listed with named | ⟨part, inside, listed⟩
  · exact members id node symbol found named
  · exact ih part inside symbol listed

end Graph

end LinkName
