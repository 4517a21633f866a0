import LinkName.Naming
import LinkName.Proofs.Itanium.Siblings
import LinkName.Proofs.Microsoft.Siblings

/-!
What becomes of the identifiers of siblings in a specialization. Only functions and variables keep
them, and only in Itanium names; everything else is spelled as the specialization alone.
-/
namespace LinkName

/-- Members of a specialization that are of one sort and have different identifiers. As functions or
variables they have different Itanium names, unless they are destructors, and one Microsoft name, if
they have the same access. Functions that differ in one parameter, which points to one member or the
other, have one name in both families, unless it asks for the other member elsewhere. -/
theorem nameFor_members {graph : Graph} (built : graph.Built) (target : Target)
    {first second parent template : SymbolId} {symbol symbol' outer : Symbol}
    (stored : graph.symbol first = .ok symbol) (stored' : graph.symbol second = .ok symbol')
    (inside : symbol.parent = some parent) (inside' : symbol'.parent = some parent)
    (known : graph.symbol parent = .ok outer) (special : outer.template? = some template)
    (sorts : symbol.sort = symbol'.sort) (different : symbol.ident ≠ symbol'.ident) :
    ((∀ info, symbol.sort = .function info → info.role ≠ .destructor) →
      ∀ text, Itanium.nameFor graph target first = .ok text →
        Itanium.nameFor graph target second ≠ .ok text) ∧
    (symbol.access = symbol'.access → ∀ text,
      Microsoft.nameFor graph target first = .ok text ↔
        Microsoft.nameFor graph target second = .ok text) ∧
    ∀ (id id' : SymbolId) (type type' : TypeId) (naming : Naming) (quals pointer : Qualifiers),
      graph.DifferInParam id id' .value type type' →
      graph.tree type = .layer .pointer (.named naming first quals) pointer →
      graph.tree type' = .layer .pointer (.named naming second quals) pointer →
      (second ∉ (Itanium.nameScript graph target id).symbols →
        first ∉ (Itanium.nameScript graph target id').symbols → ∀ text,
          Itanium.nameFor graph target id = .ok text ↔
            Itanium.nameFor graph target id' = .ok text) ∧
      (second ∉ (Microsoft.nameScript graph target id).symbols →
        first ∉ (Microsoft.nameScript graph target id').symbols → ∀ text,
          Microsoft.nameFor graph target id = .ok text ↔
            Microsoft.nameFor graph target id' = .ok text) := by
  have formed := built.wellFormed
  have parents : symbol.parent = symbol'.parent := inside.trans inside'.symm
  have levels := Graph.levels_siblings_of_member stored stored' parents inside known special
  have level := Graph.level_siblings stored stored' parents inside known special
  refine ⟨?idents, ?siblings, ?pointers⟩
  case idents =>
    intro role text named
    exact Itanium.nameFor_siblings_ne formed stored stored' parents inside known
      (Option.isSome_iff_exists.mpr ⟨_, special⟩) sorts role different named
  case siblings =>
    intro accesses text
    constructor
    · exact Microsoft.nameFor_siblings formed stored stored' sorts levels parents accesses
    · exact Microsoft.nameFor_siblings formed stored' stored sorts.symm levels.symm parents.symm
        accesses.symm
  case pointers =>
    intro id id' type type' naming quals pointer differ typed typed'
    have back := differ.symm
    constructor
    · intro without without' text
      constructor
      · exact Itanium.nameFor_of_pointer formed level differ typed typed' without without'
      · exact Itanium.nameFor_of_pointer formed level.symm back typed' typed without' without
    · intro without without' text
      constructor
      · exact Microsoft.nameFor_of_pointer formed stored stored' sorts levels differ typed typed'
          without without'
      · exact Microsoft.nameFor_of_pointer formed stored' stored sorts.symm levels.symm back typed'
          typed without' without

/-- The specialization of `Tree` for `int` holds `Node` and `Leaf`, functions `grow` and `trim` and
variables `root` and `tip`. One `put` takes a pointer to `Node`, the other one to `Leaf`. -/
def trees : Graph where
  symbols :=
    [{ ident := "app", sort := .moduleScope },
      { ident := "Tree", parent := some ⟨0⟩, sort := .template none },
      { ident := "Tree", parent := some ⟨0⟩, sort := .specialization ⟨1⟩ [.type ⟨0⟩] },
      { ident := "Node", parent := some ⟨2⟩, sort := .record .struct },
      { ident := "Leaf", parent := some ⟨2⟩, sort := .record .struct },
      { ident := "put", parent := some ⟨0⟩, sort := .function { type := ⟨6⟩ } },
      { ident := "put", parent := some ⟨0⟩, sort := .function { type := ⟨7⟩ } },
      { ident := "grow", parent := some ⟨2⟩, sort := .function { type := ⟨8⟩ } },
      { ident := "trim", parent := some ⟨2⟩, sort := .function { type := ⟨8⟩ } },
      { ident := "root", parent := some ⟨2⟩,
        sort := .var { type := ⟨0⟩, storage := { isExtern := true } } },
      { ident := "tip", parent := some ⟨2⟩,
        sort := .var { type := ⟨0⟩, storage := { isExtern := true } } }]
  types :=
    [{ form := .basic .int32 }, { form := .basic .void }, { form := .record ⟨3⟩ },
      { form := .record ⟨4⟩ }, { form := .pointer ⟨2⟩ }, { form := .pointer ⟨3⟩ },
      { form := .function { result := ⟨1⟩, params := [{ type := ⟨4⟩ }] } },
      { form := .function { result := ⟨1⟩, params := [{ type := ⟨5⟩ }] } },
      { form := .function { result := ⟨1⟩, params := [] } }]

theorem trees_built : trees.Built :=
  Graph.built_of_takeAll?
    [.type { form := .basic .int32 }, .type { form := .basic .void },
      .symbol { ident := "app", sort := .moduleScope },
      .symbol { ident := "Tree", parent := some ⟨0⟩, sort := .template none },
      .specialization ⟨1⟩ [.type ⟨0⟩],
      .symbol { ident := "Node", parent := some ⟨2⟩, sort := .record .struct },
      .symbol { ident := "Leaf", parent := some ⟨2⟩, sort := .record .struct },
      .type { form := .record ⟨3⟩ }, .type { form := .record ⟨4⟩ },
      .type { form := .pointer ⟨2⟩ }, .type { form := .pointer ⟨3⟩ },
      .type { form := .function { result := ⟨1⟩, params := [{ type := ⟨4⟩ }] } },
      .type { form := .function { result := ⟨1⟩, params := [{ type := ⟨5⟩ }] } },
      .type { form := .function { result := ⟨1⟩, params := [] } },
      .symbol { ident := "put", parent := some ⟨0⟩, sort := .function { type := ⟨6⟩ } },
      .symbol { ident := "put", parent := some ⟨0⟩, sort := .function { type := ⟨7⟩ } },
      .symbol { ident := "grow", parent := some ⟨2⟩, sort := .function { type := ⟨8⟩ } },
      .symbol { ident := "trim", parent := some ⟨2⟩, sort := .function { type := ⟨8⟩ } },
      .symbol
        { ident := "root", parent := some ⟨2⟩,
          sort := .var { type := ⟨0⟩, storage := { isExtern := true } } },
      .symbol
        { ident := "tip", parent := some ⟨2⟩,
          sort := .var { type := ⟨0⟩, storage := { isExtern := true } } }] rfl

theorem trees_differ : trees.DifferInParam ⟨5⟩ ⟨6⟩ .value ⟨4⟩ ⟨5⟩ :=
  ⟨{ ident := "put", parent := some ⟨0⟩, sort := .moduleScope }, { type := ⟨6⟩ }, ⟨7⟩,
    { result := ⟨1⟩ }, [], [], {}, {}, rfl, rfl, rfl, rfl⟩

/-- `grow` and `trim` have different Itanium names and one Microsoft name; each `put` has the name of
the other. -/
theorem nameFor_members_trees :
    Itanium.nameFor trees .itanium64 ⟨7⟩ = .ok "_ZN4TreeIiE4growEv" ∧
      Itanium.nameFor trees .itanium64 ⟨8⟩ ≠ .ok "_ZN4TreeIiE4growEv" ∧
      Microsoft.nameFor trees .microsoft64 ⟨8⟩ = .ok "??$Tree@H@@YAXXZ" ∧
      Itanium.nameFor trees .itanium64 ⟨6⟩ = .ok "_Z3putP4TreeIiE" ∧
      Microsoft.nameFor trees .microsoft64 ⟨6⟩ = .ok "?put@@YAXPEAU?$Tree@H@@@Z" := by
  have grow : Itanium.nameFor trees .itanium64 ⟨7⟩ = .ok "_ZN4TreeIiE4growEv" := by decide +kernel
  have grow' : Microsoft.nameFor trees .microsoft64 ⟨7⟩ = .ok "??$Tree@H@@YAXXZ" := by decide +kernel
  have put : Itanium.nameFor trees .itanium64 ⟨5⟩ = .ok "_Z3putP4TreeIiE" := by decide +kernel
  have put' : Microsoft.nameFor trees .microsoft64 ⟨5⟩ = .ok "?put@@YAXPEAU?$Tree@H@@@Z" := by
    decide +kernel
  have functions (target : Target) :=
    @nameFor_members trees trees_built target ⟨7⟩ ⟨8⟩ ⟨2⟩ ⟨1⟩ _ _ _
      rfl rfl rfl rfl rfl rfl rfl (by decide)
  have records (target : Target) :=
    (@nameFor_members trees trees_built target ⟨3⟩ ⟨4⟩ ⟨2⟩ ⟨1⟩ _ _ _
      rfl rfl rfl rfl rfl rfl rfl (by decide)).2.2 ⟨5⟩ ⟨6⟩ ⟨4⟩ ⟨5⟩ .record {} {} trees_differ
        rfl rfl
  refine ⟨grow, ?_, ?_, ?_, ?_⟩
  · exact (functions .itanium64).1 (by rintro info ⟨⟩; decide) _ grow
  · exact ((functions .microsoft64).2.1 rfl _).mp grow'
  · exact ((records .itanium64).1 (by decide +kernel) (by decide +kernel) _).mp put
  · exact ((records .microsoft64).2 (by decide +kernel) (by decide +kernel) _).mp put'

/-- `Node` and `Leaf` cannot be told apart below a pointer in either family, nor can `grow` and `trim`
or `root` and `tip` in Microsoft names. -/
theorem nameFor_trees_collide :
    trees.DifferInParam ⟨5⟩ ⟨6⟩ .value ⟨4⟩ ⟨5⟩ ∧
      Itanium.nameFor trees .itanium64 ⟨5⟩ = .ok "_Z3putP4TreeIiE" ∧
      Itanium.nameFor trees .itanium64 ⟨6⟩ = .ok "_Z3putP4TreeIiE" ∧
      Microsoft.nameFor trees .microsoft64 ⟨5⟩ = .ok "?put@@YAXPEAU?$Tree@H@@@Z" ∧
      Microsoft.nameFor trees .microsoft64 ⟨6⟩ = .ok "?put@@YAXPEAU?$Tree@H@@@Z" ∧
      Microsoft.nameFor trees .microsoft64 ⟨7⟩ = .ok "??$Tree@H@@YAXXZ" ∧
      Microsoft.nameFor trees .microsoft64 ⟨8⟩ = .ok "??$Tree@H@@YAXXZ" ∧
      Microsoft.nameFor trees .microsoft64 ⟨9⟩ = .ok "??$Tree@H@@2HA" ∧
      Microsoft.nameFor trees .microsoft64 ⟨10⟩ = .ok "??$Tree@H@@2HA" := by
  refine ⟨trees_differ, ?_, ?_, ?_, ?_, ?_, ?_, ?_, ?_⟩ <;> decide +kernel

end LinkName
