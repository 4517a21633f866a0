import LinkName.Naming
import LinkName.Proofs.Itanium.Levels
import LinkName.Proofs.Microsoft.Levels

/-!
The levels of a name in both families. They are the same ones in the opposite order, each written
once, unless the symbol is a direct member of a specialization: Itanium names write such a member
behind the specialization, and Microsoft names leave it out.
-/
namespace LinkName

/-- An Itanium name writes the scopes of a symbol and then the symbol itself, and a Microsoft name the
levels that are found on the way through its parents. Outside specializations these are the same
levels in the opposite order. A member of a specialization is no level of its Microsoft name; the
others are the same, if the specialization is not a member of another one. -/
theorem nameFor_levels {graph : Graph} (built : graph.Built) (target target' : Target)
    {id : SymbolId} (qualified : graph.IsQualified id) {text text' : String}
    (named : Itanium.nameFor graph target id = .ok text)
    (named' : Microsoft.nameFor graph target' id = .ok text') :
    ∃ scope scopes levels, graph.scopeParent id = .ok scope ∧ graph.Scopes scope scopes ∧
      graph.levels id = .ok levels ∧
      Itanium.SpellsName graph target (scopes.reverse ++ [id]) text ∧
      Microsoft.SpellsName graph target' id levels text' ∧
      (graph.ModulesApart →
        (¬ graph.InSpecialization id → scopes.reverse ++ [id] = levels.reverse) ∧
        (graph.InSpecialization id → id ∉ levels ∧
          ((∀ parent, graph.HasParent id parent → ¬ graph.InSpecialization parent) →
            scopes.reverse = levels.reverse))) := by
  have formed := built.wellFormed
  have ordinary := qualified
  obtain ⟨symbol, stored, sorts⟩ := ordinary
  have held : graph.Holds (.symbol id) := Graph.holds_symbol_iff.mpr ⟨symbol, stored⟩
  have other : symbol.isModule = false := by
    rcases sorts with ⟨info, -, -, sort, -⟩ | ⟨info, -, sort, -⟩ <;> rw [Symbol.isModule, sort]
  obtain ⟨scope, around⟩ := formed.scopeParent_eq_ok held
  obtain ⟨scopes, scoping⟩ := formed.exists_scopes fun outer (same : scope = some outer) =>
    formed.closed _ _ (Graph.mentions_scopeParent (same ▸ around))
  obtain ⟨levels, found, -⟩ := formed.levels_eq_ok held
  refine ⟨scope, scopes, levels, around, scoping, found,
    Itanium.nameFor_spells built qualified named around scoping,
    Microsoft.nameFor_spells built named' found, fun apart => ⟨fun plain => ?_, fun member => ?_⟩⟩
  · rw [Graph.levels_of_not_inSpecialization apart formed stored other around scoping found plain,
      List.reverse_cons]
  · obtain ⟨missing, same⟩ :=
      Graph.levels_of_inSpecialization apart formed around scoping found member
    exact ⟨missing, fun outermost => by rw [same outermost]⟩

/-- A specialization of `Tree` in `geo`. It holds a record `Tree` with a method `grow`, and a function
`trim`. -/
def gardens : Graph where
  symbols :=
    [{ ident := "app", sort := .moduleScope },
      { ident := "geo", parent := some ⟨0⟩, sort := .namespaceScope },
      { ident := "Tree", parent := some ⟨1⟩, sort := .template none },
      { ident := "Tree", parent := some ⟨1⟩, sort := .specialization ⟨2⟩ [.type ⟨0⟩] },
      { ident := "Tree", parent := some ⟨3⟩, sort := .record .struct },
      { ident := "grow", parent := some ⟨4⟩,
        sort := .function { type := ⟨2⟩, needsThis := true, isConst := true } },
      { ident := "trim", parent := some ⟨3⟩, sort := .function { type := ⟨2⟩ } }]
  types :=
    [{ form := .basic .int32 }, { form := .basic .void }, { form := .function { result := ⟨1⟩ } }]

theorem gardens_built : gardens.Built :=
  Graph.built_of_takeAll?
    [.type { form := .basic .int32 }, .type { form := .basic .void },
      .type { form := .function { result := ⟨1⟩ } },
      .symbol { ident := "app", sort := .moduleScope },
      .symbol { ident := "geo", parent := some ⟨0⟩, sort := .namespaceScope },
      .symbol { ident := "Tree", parent := some ⟨1⟩, sort := .template none },
      .specialization ⟨2⟩ [.type ⟨0⟩],
      .symbol { ident := "Tree", parent := some ⟨3⟩, sort := .record .struct },
      .symbol
        { ident := "grow", parent := some ⟨4⟩,
          sort := .function { type := ⟨2⟩, needsThis := true, isConst := true } },
      .symbol { ident := "trim", parent := some ⟨3⟩, sort := .function { type := ⟨2⟩ } }] rfl

theorem gardens_modulesApart : gardens.ModulesApart := by
  rintro ⟨_ | _ | _ | _ | _ | _ | _ | _⟩ symbol stored module ⟨_, _, ⟨_, again, inside⟩, -⟩ <;>
    cases stored <;> cases module
  cases again
  cases inside

theorem gardens_not_inSpecialization {id parent : SymbolId} {symbol outer : Symbol}
    (stored : gardens.symbol id = .ok symbol) (inside : symbol.parent = some parent)
    (known : gardens.symbol parent = .ok outer) (plain : outer.template? = none) :
    ¬ gardens.InSpecialization id := by
  rintro ⟨parent', outer', ⟨symbol', stored', inside'⟩, known', special⟩
  cases stored.symm.trans stored'
  cases inside.symm.trans inside'
  cases known.symm.trans known'
  rw [plain] at special
  cases special

theorem gardens_trim_isQualified : gardens.IsQualified ⟨6⟩ :=
  ⟨_, rfl, .inl ⟨_, _, _, rfl, rfl, rfl⟩⟩

theorem itanium_gardens_trim :
    Itanium.nameFor gardens .itanium64 ⟨6⟩ = .ok "_ZN3geo4TreeIiE4trimEv" := by decide +kernel

theorem microsoft_gardens_trim :
    Microsoft.nameFor gardens .microsoft64 ⟨6⟩ = .ok "??$Tree@H@geo@@YAXXZ" := by decide +kernel

/-- The levels of a method agree: the record that it belongs to is absorbed by both names. Those of a
direct member of the specialization do not. -/
theorem nameFor_levels_gardens :
    (∃ scope scopes levels, gardens.scopeParent ⟨5⟩ = .ok scope ∧ gardens.Scopes scope scopes ∧
      gardens.levels ⟨5⟩ = .ok levels ∧
      Itanium.SpellsName gardens Target.itanium64 (scopes.reverse ++ [⟨5⟩])
        "_ZNK3geo4TreeIiE4growEv" ∧
      Microsoft.SpellsName gardens .microsoft64 ⟨5⟩ levels "?grow@?$Tree@H@geo@@QEBAXXZ" ∧
      scopes.reverse ++ [⟨5⟩] = levels.reverse) ∧
    ∃ scope scopes levels, gardens.scopeParent ⟨6⟩ = .ok scope ∧ gardens.Scopes scope scopes ∧
      gardens.levels ⟨6⟩ = .ok levels ∧
      Itanium.SpellsName gardens Target.itanium64 (scopes.reverse ++ [⟨6⟩])
        "_ZN3geo4TreeIiE4trimEv" ∧
      Microsoft.SpellsName gardens .microsoft64 ⟨6⟩ levels "??$Tree@H@geo@@YAXXZ" ∧
      ⟨6⟩ ∉ levels ∧ scopes.reverse = levels.reverse := by
  constructor
  · have qualified : gardens.IsQualified ⟨5⟩ := ⟨_, rfl, .inl ⟨_, _, _, rfl, rfl, rfl⟩⟩
    have named : Itanium.nameFor gardens .itanium64 ⟨5⟩ = .ok "_ZNK3geo4TreeIiE4growEv" := by
      decide +kernel
    have named' : Microsoft.nameFor gardens .microsoft64 ⟨5⟩ = .ok "?grow@?$Tree@H@geo@@QEBAXXZ" := by
      decide +kernel
    obtain ⟨scope, scopes, levels, around, scoping, found, spells, spells', agree⟩ :=
      nameFor_levels gardens_built .itanium64 .microsoft64 qualified named named'
    exact ⟨scope, scopes, levels, around, scoping, found, spells, spells',
      (agree gardens_modulesApart).1 (gardens_not_inSpecialization rfl rfl rfl rfl)⟩
  · obtain ⟨scope, scopes, levels, around, scoping, found, spells, spells', agree⟩ :=
      nameFor_levels gardens_built .itanium64 .microsoft64 gardens_trim_isQualified
        itanium_gardens_trim microsoft_gardens_trim
    obtain ⟨missing, same⟩ := (agree gardens_modulesApart).2 ⟨⟨3⟩, _, ⟨_, rfl, rfl⟩, rfl, rfl⟩
    refine ⟨scope, scopes, levels, around, scoping, found, spells, spells', missing, same ?_⟩
    rintro parent ⟨symbol, stored, inside⟩
    cases stored
    cases inside
    exact gardens_not_inSpecialization rfl rfl rfl rfl

/-- The Itanium name of `trim` writes it behind its specialization, and the Microsoft name does not. -/
theorem nameFor_gardens_differ :
    gardens.IsQualified ⟨6⟩ ∧
      Itanium.nameFor gardens .itanium64 ⟨6⟩ = .ok "_ZN3geo4TreeIiE4trimEv" ∧
      Itanium.SpellsName gardens Target.itanium64 [⟨1⟩, ⟨3⟩, ⟨6⟩]
        "_ZN3geo4TreeIiE4trimEv" ∧
      Microsoft.nameFor gardens .microsoft64 ⟨6⟩ = .ok "??$Tree@H@geo@@YAXXZ" ∧
      Microsoft.SpellsName gardens .microsoft64 ⟨6⟩ [⟨3⟩, ⟨1⟩] "??$Tree@H@geo@@YAXXZ" ∧
      ([⟨1⟩, ⟨3⟩, ⟨6⟩] : List SymbolId) ≠ [⟨3⟩, ⟨1⟩].reverse :=
  ⟨gardens_trim_isQualified, itanium_gardens_trim,
    Itanium.nameFor_spells gardens_built gardens_trim_isQualified itanium_gardens_trim rfl
      (.inner rfl (.inner rfl .outermost)),
    microsoft_gardens_trim, Microsoft.nameFor_spells gardens_built microsoft_gardens_trim rfl,
    by decide⟩

end LinkName
