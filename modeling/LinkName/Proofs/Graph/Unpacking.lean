import LinkName.Proofs.Graph.Outline
import LinkName.Proofs.Type.Spelling

/-!
Packs at the end of argument lists. Where such a pack is replaced by what it holds, the arguments
keep their leaves, so that diagnostics spell every symbol and every type as before.
-/
namespace LinkName

namespace TemplateArg

def isPack : TemplateArg → Bool
  | .pack _ => true
  | _ => false

/-- The second list has what the pack at the end of the first one holds, in its place. -/
inductive Unpacks : List TemplateArg → List TemplateArg → Prop
  | last {first inner : List TemplateArg} (before : ∀ arg ∈ first, arg.isPack = false)
      (inside : ∀ arg ∈ inner, arg.isPack = false) :
      Unpacks (first ++ [.pack inner]) (first ++ inner)

theorem leavesOf_append (first rest : List TemplateArg) :
    leavesOf (first ++ rest) = leavesOf first ++ leavesOf rest := by
  induction first with
  | nil => rfl
  | cons arg others ih => rw [List.cons_append, leavesOf, leavesOf, ih, List.append_assoc]

theorem Unpacks.leavesOf_eq {args args' : List TemplateArg} (unpacks : Unpacks args args') :
    leavesOf args = leavesOf args' := by
  obtain ⟨-, -⟩ := unpacks
  rw [leavesOf_append, leavesOf_append, leavesOf, leavesOf, leaves, List.append_nil]

end TemplateArg

/-- The second symbol is the first one or, if that is a specialization, the one with its last pack
replaced. -/
inductive Symbol.Unpacks : Symbol → Symbol → Prop
  | same (symbol : Symbol) : Unpacks symbol symbol
  | specialization {ident : String} {parent : Option SymbolId} {access : Access}
      {template : SymbolId} {args args' : List TemplateArg}
      (unpacks : TemplateArg.Unpacks args args') :
      Unpacks { ident, parent, access, sort := .specialization template args }
        { ident, parent, access, sort := .specialization template args' }

namespace Graph

/-- The graphs differ only in specializations that have their last pack replaced in the second. -/
structure Unpacks (graph graph' : Graph) : Prop where
  symbols : List.Forall₂ Symbol.Unpacks graph.symbols graph'.symbols
  types : graph.types = graph'.types

namespace Unpacks

variable {graph graph' : Graph} (unpacks : graph.Unpacks graph')
include unpacks

theorem sameOutline : graph.SameOutline graph' :=
  .of_forall₂ unpacks.symbols fun symbol symbol' related => by cases related <;> rfl

theorem symbol_cases (id : SymbolId) :
    (∃ found found', graph.symbol id = .ok found ∧ graph'.symbol id = .ok found' ∧
      found.Unpacks found') ∨
    ∃ fault, graph.symbol id = .error fault ∧ graph'.symbol id = .error fault := by
  cases stored : graph.symbol id with
  | error fault => exact .inr ⟨fault, rfl, unpacks.sameOutline.symbol_error stored⟩
  | ok found =>
      obtain ⟨found', stored', related⟩ := symbol_of_forall₂ unpacks.symbols stored
      exact .inl ⟨found, found', rfl, stored', related⟩

theorem type_eq (id : TypeId) : graph.type id = graph'.type id := by
  unfold Graph.type
  rw [unpacks.types]

theorem tree_eq : graph.tree = graph'.tree := by
  have within (fuel : Nat) : graph.treeWithin fuel = graph'.treeWithin fuel := by
    induction fuel with
    | zero => rfl
    | succ fuel ih =>
        funext id
        simp only [treeWithin, unpacks.type_eq, ih]
  funext id
  rw [tree, tree, within, unpacks.types, unpacks.sameOutline.length_eq]

end Unpacks

end Graph

/-! ## Diagnostics -/

namespace Symbol.Unpacks

variable {symbol symbol' : Symbol} (unpacks : symbol.Unpacks symbol')
include unpacks

theorem ident_eq : symbol.ident = symbol'.ident := by cases unpacks <;> rfl

theorem parent_eq : symbol.parent = symbol'.parent := by cases unpacks <;> rfl

theorem template?_eq : symbol.template? = symbol'.template? := by cases unpacks <;> rfl

theorem spellName_eq (inner : Speller) :
    Graph.spellName inner symbol = Graph.spellName inner symbol' := by
  cases unpacks with
  | same => rfl
  | specialization replaced =>
      rw [Graph.spellName_specialization inner _ rfl, Graph.spellName_specialization inner _ rfl,
        replaced.leavesOf_eq]

theorem nameText_eq (graph : Graph) (text : SymbolId → String) :
    graph.nameText text symbol = graph.nameText text symbol' := by
  cases unpacks with
  | same => rfl
  | specialization replaced => simp only [Graph.nameText, replaced.leavesOf_eq]

end Symbol.Unpacks

namespace Graph.Unpacks

variable {graph graph' : Graph} (unpacks : graph.Unpacks graph')
include unpacks

theorem spellPath_eq (inner : Speller) (id : SymbolId) :
    graph.spellPath inner id = graph'.spellPath inner id := by
  unfold spellPath
  rcases unpacks.symbol_cases id with ⟨found, found', stored, stored', related⟩ | ⟨_, none, none'⟩
  · simp only [stored, stored', bind, Except.bind, related.parent_eq, related.ident_eq,
      related.spellName_eq]
    cases found'.parent with
    | none => rfl
    | some parent =>
        rcases unpacks.symbol_cases parent with
          ⟨outer, outer', known, known', around⟩ | ⟨_, none, none'⟩
        · simp only [known, known', around.template?_eq, around.ident_eq]
        · simp only [none, none']
  · rw [none, none']
    rfl

theorem speller_eq (fuel : Nat) :
    ({} : Overlay graph).speller fuel = ({} : Overlay graph').speller fuel := by
  have type (id : TypeId) : ({} : Overlay graph).type id = ({} : Overlay graph').type id := by
    unfold Overlay.type
    rw [unpacks.types]
  have form (inner : Speller) (form : TypeForm) :
      ({} : Overlay graph).spellForm inner form = ({} : Overlay graph').spellForm inner form := by
    unfold Overlay.spellForm
    simp only [type]
  induction fuel with
  | zero => rfl
  | succ fuel ih =>
      simp only [Overlay.speller, ih, Speller.mk.injEq]
      constructor
      · funext id
        simp only [Overlay.spellNode, type, form]
      · funext id
        exact unpacks.spellPath_eq _ id

theorem reach_eq : ({} : Overlay graph).reach = ({} : Overlay graph').reach := by
  unfold Overlay.reach
  rw [unpacks.types, unpacks.sameOutline.length_eq]

theorem spellSymbol_eq (id : SymbolId) : graph.spellSymbol id = graph'.spellSymbol id := by
  unfold spellSymbol Overlay.spellSymbol
  rw [unpacks.speller_eq, unpacks.reach_eq]

theorem spellType_eq (id : TypeId) : graph.spellType id = graph'.spellType id := by
  unfold spellType Overlay.spellType
  rw [unpacks.speller_eq, unpacks.reach_eq]

theorem argumentText_eq : graph.argumentText = graph'.argumentText := by
  funext text arg
  unfold argumentText
  rw [unpacks.tree_eq]

theorem text_eq : graph.text = graph'.text := by
  have names (text : SymbolId → String) (symbol : Symbol) :
      graph.nameText text symbol = graph'.nameText text symbol := by
    unfold nameText
    rw [unpacks.argumentText_eq]
  have within (fuel : Nat) : graph.textWithin fuel = graph'.textWithin fuel := by
    induction fuel with
    | zero => rfl
    | succ fuel ih =>
        funext id
        simp only [textWithin, ih]
        rcases unpacks.symbol_cases id with
          ⟨found, found', stored, stored', related⟩ | ⟨_, none, none'⟩
        · simp only [stored, stored', pathText, related.parent_eq, related.ident_eq,
            related.nameText_eq, names]
          cases found'.parent with
          | none => rfl
          | some parent =>
              rcases unpacks.symbol_cases parent with
                ⟨outer, outer', known, known', around⟩ | ⟨_, none, none'⟩
              · simp only [known, known', around.template?_eq, around.ident_eq]
              · simp only [none, none']
        · simp only [none, none']
  funext id
  rw [text, text, within, unpacks.types, unpacks.sameOutline.length_eq]

end Graph.Unpacks

end LinkName
