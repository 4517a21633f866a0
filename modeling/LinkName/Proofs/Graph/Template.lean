import LinkName.Proofs.Graph.Construction
import LinkName.Proofs.Graph.Scope

/-!
Templates and their specializations. Where every specialization is one of a template, and no template
is declared in a specialization, a template is written with the scope of its specializations.
-/
namespace LinkName.Graph

/-- Only templates have specializations. -/
def SpecializesTemplates (graph : Graph) : Prop :=
  ∀ id symbol template, graph.symbol id = .ok symbol → symbol.template? = some template →
    ∃ general member, graph.symbol template = .ok general ∧ general.sort = .template member

/-- No template is declared directly in a specialization. -/
def TemplatesApart (graph : Graph) : Prop :=
  ∀ id symbol member parent outer, graph.symbol id = .ok symbol →
    symbol.sort = .template member → symbol.parent = some parent →
      graph.symbol parent = .ok outer → outer.template? = none

/-- What is asked of the templates of a graph. -/
structure ProperTemplates (graph : Graph) : Prop where
  copies : graph.CopiesTemplates
  general : graph.SpecializesTemplates
  apart : graph.TemplatesApart

variable {graph : Graph} {id template : SymbolId} {symbol : Symbol}

theorem scopeParent_congr {other : SymbolId} {symbol' : Symbol} (stored : graph.symbol id = .ok symbol)
    (stored' : graph.symbol other = .ok symbol') (same : symbol'.parent = symbol.parent) :
    graph.scopeParent other = graph.scopeParent id := by
  simp only [scopeParent, stored, stored', same, bind, Except.bind]

/-- A symbol whose parent is not a specialization is a level of its own. -/
theorem level_of_apart {scope : Option SymbolId} (stored : graph.symbol id = .ok symbol)
    (apart : ∀ parent outer, symbol.parent = some parent → graph.symbol parent = .ok outer →
      outer.template? = none)
    (found : graph.scopeParent id = .ok scope) :
    graph.level id = .ok { name := id, scope, template := none } := by
  obtain ⟨symbol', stored', ends⟩ := scopeParent_eq_ok_iff.mp found
  cases stored.symm.trans stored'
  refine level_eq_ok_iff.mpr ⟨symbol, stored, ?_⟩
  rcases ends with ⟨above, rfl⟩ | ⟨parent, outer, above, known, rfl⟩
  · exact .inl ⟨above, rfl⟩
  · exact .inr ⟨parent, outer, above, known, .inl ⟨apart parent outer above known, rfl⟩⟩

namespace ProperTemplates

variable (proper : graph.ProperTemplates)
include proper

/-- A template has the name and the scope of its specializations. -/
theorem general_eq (stored : graph.symbol id = .ok symbol)
    (special : symbol.template? = some template) :
    ∃ general member, graph.symbol template = .ok general ∧ general.sort = .template member ∧
      general.ident = symbol.ident ∧ graph.scopeParent template = graph.scopeParent id := by
  obtain ⟨general, member, found, sort⟩ := proper.general id symbol template stored special
  obtain ⟨copied, found', ident, parent⟩ := proper.copies id symbol template stored special
  obtain rfl : general = copied := Except.ok.inj (found.symm.trans found')
  exact ⟨general, member, found, sort, ident, scopeParent_congr stored found parent⟩

theorem level_template {scope : Option SymbolId} (stored : graph.symbol id = .ok symbol)
    (special : symbol.template? = some template) (found : graph.scopeParent id = .ok scope) :
    graph.level template = .ok { name := template, scope, template := none } := by
  obtain ⟨general, member, known, sort, -, same⟩ := proper.general_eq stored special
  exact level_of_apart known
    (fun parent outer inside => proper.apart template general member parent outer known sort inside)
    (same.trans found)

end ProperTemplates

end LinkName.Graph
