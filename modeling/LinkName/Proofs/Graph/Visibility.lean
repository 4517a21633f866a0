import LinkName.Proofs.Graph.Levels
import LinkName.Proofs.Graph.Outline
import LinkName.Proofs.Type.Weight

/-!
What a C++ program sees of a graph. It does not see what modules are called, who may use a
declaration, whether a function has a receiver or a slot in a virtual table, and which one member a
template has; and of a type that is nothing but the signature of functions it does not see the
result. Graphs that differ in these things only have the same scopes and, apart from signatures, the
same trees.
-/
namespace LinkName

namespace SymbolSort

/-- The same sort, as far as it is seen. -/
inductive SeenAlike : SymbolSort → SymbolSort → Prop
  | same (sort : SymbolSort) : SeenAlike sort sort
  | template (member member' : SymbolId) :
      SeenAlike (.template (some member)) (.template (some member'))
  | function (info : FunctionInfo) (needsThis isVirtual : Bool) :
      SeenAlike (.function info) (.function { info with needsThis, isVirtual })

/-- What looks the same as a function is a function that differs in its receiver and slot only. -/
theorem SeenAlike.of_function {info : FunctionInfo} {sort : SymbolSort}
    (alike : SeenAlike (.function info) sort) :
    ∃ needsThis isVirtual, sort = .function { info with needsThis, isVirtual } := by
  cases alike with
  | same => exact ⟨info.needsThis, info.isVirtual, rfl⟩
  | function info needsThis isVirtual => exact ⟨needsThis, isVirtual, rfl⟩

end SymbolSort

/-- The same symbol, as far as it is seen. -/
structure Symbol.SeenAlike (symbol symbol' : Symbol) : Prop where
  ident : symbol.isModule = false → symbol.ident = symbol'.ident
  parent : symbol.parent = symbol'.parent
  sort : symbol.sort.SeenAlike symbol'.sort

/-- Function types that differ in their results only. -/
inductive TypeNode.SameButResult : TypeNode → TypeNode → Prop
  | function (signature : Signature) (quals : Qualifiers) (result : TypeId) (refResult : Bool) :
      SameButResult { form := .function signature, quals }
        { form := .function { signature with result, refResult }, quals }

namespace Graph

def IsFunction (graph : Graph) (id : SymbolId) : Prop :=
  ∃ symbol info, graph.symbol id = .ok symbol ∧ symbol.sort = .function info

/-- The type is the signature of functions and part of nothing else. -/
def IsSignature (graph : Graph) (id : TypeId) : Prop :=
  ∀ entity, graph.Mentions entity (.type id) → ∃ symbol, entity = .symbol symbol ∧
    graph.IsFunction symbol

/-- The graphs have the same handles and look the same to C++. -/
structure SeenAlike (graph graph' : Graph) : Prop where
  symbols : List.Forall₂ Symbol.SeenAlike graph.symbols graph'.symbols
  types : graph.types.length = graph'.types.length
  type : ∀ id node, graph.type id = .ok node → graph'.type id = .ok node ∨
    graph.IsSignature id ∧ ∃ node', graph'.type id = .ok node' ∧ node.SameButResult node'

/-- A symbol of the graph that is not a module. -/
def IsDeclaration (graph : Graph) (id : SymbolId) : Prop :=
  ∃ symbol, graph.symbol id = .ok symbol ∧ symbol.isModule = false

/-- No type is made from a module. -/
def ModulesUntyped (graph : Graph) : Prop :=
  ∀ id node, graph.type id = .ok node → ∀ symbol ∈ node.form.symbol?, ∀ found,
    graph.symbol symbol = .ok found → found.isModule = false

variable {graph graph' : Graph} {id : SymbolId} {type : TypeId}

/-! ## Scopes -/

theorem isDeclaration_scope {scope : SymbolId}
    (found : graph.scopeParent id = .ok (some scope)) : graph.IsDeclaration scope := by
  obtain ⟨symbol, stored, -⟩ := scopeParent_eq_ok_iff.mp found
  rcases scopeParent_cases stored found with
    ⟨-, ⟨⟩⟩ | ⟨parent, outer, -, known, ⟨-, ⟨⟩⟩ | ⟨other, ⟨⟩⟩⟩
  exact ⟨outer, known, other⟩

theorem IsDeclaration.level_name {level : Level} (declared : graph.IsDeclaration id)
    (formed : graph.WellFormed) (found : graph.level id = .ok level) :
    graph.IsDeclaration level.name := by
  obtain ⟨symbol, stored, other⟩ := declared
  have isLevel := isLevel_of_level found
  obtain ⟨named, known⟩ :=
    holds_symbol_iff.mp (isLevel.holds_name formed (holds_symbol_iff.mpr ⟨symbol, stored⟩))
  exact ⟨named, known, isLevel.name_isModule stored other known⟩

theorem isDeclaration_level_scope {level : Level} {scope : SymbolId}
    (found : graph.level id = .ok level) (around : level.scope = some scope) :
    graph.IsDeclaration scope :=
  isDeclaration_scope (around ▸ (isLevel_of_level found).scope)

/-- No module is named in a type. -/
theorem ModulesUntyped.tree (untyped : graph.ModulesUntyped) (formed : graph.WellFormed)
    (held : graph.Holds (.type type)) : ∀ symbol ∈ (graph.tree type).symbols,
      graph.IsDeclaration symbol := by
  refine formed.type_induction (motive := fun type => ∀ symbol ∈ (graph.tree type).symbols,
    graph.IsDeclaration symbol) ?_ held
  intro id node found _ symbols ih symbol listed
  rw [formed.tree_eq found, TypeNode.mem_symbols_tree] at listed
  rcases listed with named | ⟨part, inside, listed⟩
  · obtain ⟨other, known⟩ := formed.symbol_mention (symbols symbol named)
    exact ⟨other, known, untyped id node found symbol named other known⟩
  · exact ih part inside symbol listed

namespace SeenAlike

variable (alike : graph.SeenAlike graph')
include alike

theorem sameOutline : graph.SameOutline graph' := by
  refine .of_forall₂ alike.symbols fun symbol symbol' related => ?_
  rcases symbol with ⟨ident, parent, access, sort⟩
  rcases symbol' with ⟨ident', parent', access', sort'⟩
  obtain ⟨-, parents, sorts⟩ := related
  cases sorts <;> exact Symbol.outline_eq_iff.mpr ⟨parents, rfl, rfl⟩

/-- What is mentioned elsewhere than as the type of a function is the same. -/
theorem type_eq (formed : graph.WellFormed) {entity : Entity}
    (mentioned : graph.Mentions entity (.type type))
    (other : ∀ symbol, entity = .symbol symbol → ¬ graph.IsFunction symbol) :
    graph'.type type = graph.type type := by
  obtain ⟨node, found⟩ := holds_type_iff.mp (formed.closed _ _ mentioned)
  rcases alike.type type node found with same | ⟨signature, -⟩
  · rw [same, found]
  · obtain ⟨symbol, same, function⟩ := signature entity mentioned
    exact absurd function (other symbol same)

theorem type_eq_of_type (formed : graph.WellFormed) {outer : TypeId}
    (mentioned : graph.Mentions (.type outer) (.type type)) :
    graph'.type type = graph.type type :=
  alike.type_eq formed mentioned nofun

variable (formed : graph.WellFormed) (formed' : graph'.WellFormed)
include formed formed'

theorem tree_eq (held : graph.Holds (.type type)) (same : graph'.type type = graph.type type) :
    graph'.tree type = graph.tree type := by
  refine formed.type_induction (motive := fun type => graph'.type type = graph.type type →
    graph'.tree type = graph.tree type) ?_ held same
  intro id node found parts _ ih same
  rw [formed.tree_eq found, formed'.tree_eq (same.trans found)]
  exact TypeNode.tree_congr fun part listed =>
    ih part listed (alike.type_eq_of_type formed (parts part listed))

/-- The type of a function is a function type in both graphs, which may have different results, or it
is none in either. -/
theorem tree_cases (held : graph.Holds (.type type)) :
    (∃ result result' params convention refResult quals,
      graph.tree type = .function result params convention quals ∧
      graph'.tree type = .function result' params { convention with refResult } quals) ∨
    graph'.tree type = graph.tree type ∧ ∀ result params convention quals,
      graph.tree type ≠ .function result params convention quals := by
  obtain ⟨node, found⟩ := holds_type_iff.mp held
  rcases alike.type type node found with same | ⟨-, node', found', differ⟩
  · have same := alike.tree_eq formed formed' held (same.trans found.symm)
    by_cases function : ∃ result params convention quals,
        graph.tree type = .function result params convention quals
    · obtain ⟨result, params, convention, quals, tree⟩ := function
      exact .inl ⟨result, result, params, convention, convention.refResult, quals, tree,
        same.trans tree⟩
    · exact .inr ⟨same, fun result params convention quals tree =>
        function ⟨result, params, convention, quals, tree⟩⟩
  · cases differ with
    | function signature quals result refResult =>
        have params : (signature.params.map fun param => (param.passing, graph'.tree param.type)) =
            signature.params.map fun param => (param.passing, graph.tree param.type) := by
          refine List.map_congr_left fun param listed => ?_
          have mentioned := mentions_param found listed
          rw [alike.tree_eq formed formed' (formed.closed _ _ mentioned)
            (alike.type_eq_of_type formed mentioned)]
        refine .inl ⟨graph.tree signature.result, graph'.tree result, _, signature.convention,
          refResult, quals, formed.tree_eq found, ?_⟩
        rw [formed'.tree_eq found']
        simp only [TypeNode.tree, params]
        rfl

end SeenAlike

end Graph

end LinkName
