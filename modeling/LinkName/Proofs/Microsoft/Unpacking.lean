import LinkName.Naming
import LinkName.Proofs.Graph.Unpacking
import LinkName.Proofs.Microsoft.Refinement

/-!
A pack at the end of an argument list is its elements. Microsoft names write the elements of a pack
as they write arguments, so that a specialization has one script whether its last arguments are
packed or not, and so has everything that is made of it.
-/
namespace LinkName

namespace Microsoft

namespace Plan

section

variable {graph : Graph} {plan : Plan} {owner : SymbolId}

theorem arguments_cons {arg : TemplateArg} (plain : arg.isPack = false) (rest : List TemplateArg) :
    plan.arguments graph owner (arg :: rest) =
      .append (plan (.argument owner arg)) (plan.arguments graph owner rest) := by
  cases arg with
  | pack inner => cases plain
  | _ => rfl

theorem arguments_eq_concat {args : List TemplateArg} (plain : ∀ arg ∈ args, arg.isPack = false) :
    plan.arguments graph owner args = .concat (args.map fun arg => plan (.argument owner arg)) := by
  induction args with
  | nil => rfl
  | cons arg rest ih =>
      rw [arguments_cons (plain arg List.mem_cons_self),
        ih fun other listed => plain other (List.mem_cons_of_mem _ listed)]
      rfl

theorem arguments_unpacks {args args' : List TemplateArg}
    (unpacks : TemplateArg.Unpacks args args') :
    plan.arguments graph owner args = plan.arguments graph owner args' := by
  obtain ⟨before, inside⟩ := unpacks
  rename_i first inner
  induction first with
  | nil => exact (arguments_eq_concat inside).symm
  | cons arg rest ih =>
      have plain := before arg List.mem_cons_self
      rw [List.cons_append, List.cons_append, arguments_cons plain, arguments_cons plain,
        ih fun other listed => before other (List.mem_cons_of_mem _ listed)]

end

variable {graph graph' : Graph} (unpacks : graph.Unpacks graph') (machine : Target) (plan : Plan)
include unpacks

/-- The texts of refusals are all that arguments take from the graph. -/
theorem arguments_eq (owner : SymbolId) (args : List TemplateArg) :
    plan.arguments graph owner args = plan.arguments graph' owner args := by
  induction args with
  | nil => rfl
  | cons first rest ih =>
      cases first with
      | pack inner =>
          cases rest with
          | nil => rfl
          | cons second rest =>
              simp only [arguments, unpacks.text_eq, unpacks.argumentText_eq]
      | _ => exact congrArg (Script.append _) ih

theorem levelName_eq : plan.levelName graph machine = plan.levelName graph' machine := by
  funext spelledOut id
  unfold levelName
  rcases unpacks.symbol_cases id with ⟨found, found', stored, stored', related⟩ | ⟨_, none, none'⟩
  · simp only [stored, stored', Script.ofExcept]
    cases related with
    | same => simp only [arguments_eq unpacks]
    | specialization replaced =>
        simp only [arguments_eq unpacks, arguments_unpacks replaced]
        rfl
  · simp only [none, none', Script.ofExcept]

theorem qualifiedName_eq : plan.qualifiedName graph machine = plan.qualifiedName graph' machine := by
  funext id
  unfold qualifiedName levelNames
  rw [unpacks.sameOutline.levels_eq, levelName_eq unpacks]

/-! ## Types -/

theorem functionType_eq : plan.functionType graph machine = plan.functionType graph' machine := by
  funext tree needsThis isStructor
  have parameter : plan.parameter graph = plan.parameter graph' := by
    unfold Plan.parameter
    rw [unpacks.text_eq]
  unfold functionType parameters
  rw [unpacks.text_eq, parameter]

theorem namedType_eq : plan.namedType graph machine = plan.namedType graph' machine := by
  funext naming symbol tree place
  unfold namedType
  rw [qualifiedName_eq unpacks, unpacks.text_eq]
  rcases unpacks.symbol_cases symbol with
    ⟨found, found', stored, stored', related⟩ | ⟨_, none, none'⟩
  · have lead : namedLead machine naming found tree place =
        namedLead machine naming found' tree place := by
      cases related with
      | same => rfl
      | specialization => cases naming <;> rfl
    simp only [stored, stored', Script.ofExcept, lead]
  · simp only [none, none', Script.ofExcept]

theorem type_eq (tree : TypeTree) (place : Place) :
    plan.type graph machine tree place = plan.type graph' machine tree place := by
  unfold type pointer basicType
  rw [unpacks.text_eq, functionType_eq unpacks, namedType_eq unpacks]

/-! ## Declarations -/

theorem isMember_eq {symbol symbol' : Symbol} (related : symbol.Unpacks symbol') :
    isMember graph symbol = isMember graph' symbol' := by
  unfold isMember
  rw [related.parent_eq]
  cases symbol'.parent with
  | none => rfl
  | some parent =>
      rcases unpacks.symbol_cases parent with
        ⟨outer, outer', known, known', around⟩ | ⟨_, none, none'⟩
      · simp only [known, known']
        cases around <;> rfl
      · simp only [none, none']

theorem aliasLetter?_eq (member : SymbolId) :
    aliasLetter? graph machine member = aliasLetter? graph' machine member := by
  unfold aliasLetter?
  rcases unpacks.symbol_cases member with
    ⟨found, found', stored, stored', related⟩ | ⟨_, none, none'⟩
  · simp only [stored, stored']
    cases related <;> rfl
  · simp only [none, none']

theorem functionName_eq (id : SymbolId) (symbol : Symbol) (info : FunctionInfo) :
    plan.functionName graph machine id symbol info =
      plan.functionName graph' machine id symbol info := by
  unfold functionName
  rw [qualifiedName_eq unpacks, isMember_eq unpacks (.same symbol), functionType_eq unpacks,
    unpacks.tree_eq]

theorem variableName_eq (id : SymbolId) (symbol : Symbol) (info : VariableInfo) :
    plan.variableName graph machine id symbol info =
      plan.variableName graph' machine id symbol info := by
  unfold variableName
  rw [qualifiedName_eq unpacks, unpacks.sameOutline.scopeParent_eq, unpacks.tree_eq,
    unpacks.text_eq]

theorem argument_eq (owner : SymbolId) (arg : TemplateArg) :
    plan.argument graph machine owner arg = plan.argument graph' machine owner arg := by
  unfold argument
  rw [unpacks.text_eq, unpacks.argumentText_eq, unpacks.tree_eq]
  cases arg with
  | symbolAlias target =>
      dsimp only
      rcases unpacks.symbol_cases target with
        ⟨found, found', stored, stored', related⟩ | ⟨_, none, none'⟩
      · simp only [stored, stored', Script.ofExcept]
        cases related with
        | same =>
            simp only [functionName_eq unpacks, variableName_eq unpacks, aliasLetter?_eq unpacks,
              qualifiedName_eq unpacks]
        | specialization => dsimp only
      · simp only [none, none', Script.ofExcept]
  | _ => rfl

/-- What is made of the same parts is the same in both graphs. -/
theorem item_eq : plan.item graph machine = plan.item graph' machine := by
  funext item
  cases item with
  | scope id =>
      simp only [Plan.item, levelNames, unpacks.sameOutline.levels_eq, levelName_eq unpacks]
  | argument owner arg => exact argument_eq unpacks machine plan owner arg
  | type tree place => exact type_eq unpacks machine plan tree place

omit plan in
theorem within_eq (depth : Nat) : within graph machine depth = within graph' machine depth := by
  induction depth with
  | zero => rfl
  | succ depth ih => rw [within, within, ih, item_eq unpacks]

theorem declaration_eq_of_unpacks (id : SymbolId) :
    plan.declaration graph machine id = plan.declaration graph' machine id := by
  unfold declaration
  rw [unpacks.text_eq]
  rcases unpacks.symbol_cases id with ⟨found, found', stored, stored', related⟩ | ⟨_, none, none'⟩
  · simp only [stored, stored', Script.ofExcept]
    cases related with
    | same => simp only [functionName_eq unpacks, variableName_eq unpacks]
    | specialization => simp only [SymbolSort.describe]
  · simp only [none, none', Script.ofExcept]

end Plan

/-! ## Whole names -/

section

variable {graph graph' : Graph} {id : SymbolId}

theorem name_of_missing {fault : Fault} (machine : Target) (missing : graph.symbol id = .error fault) :
    name graph machine id = .error (.malformed fault) := by
  simp only [name, encode, Encoder.symbol, missing]
  rfl

theorem name_unpacks (formed : graph.WellFormed) (formed' : graph'.WellFormed)
    (unpacks : graph.Unpacks graph') (machine : Target) (id : SymbolId) :
    name graph machine id = name graph' machine id := by
  rcases unpacks.symbol_cases id with ⟨found, found', stored, stored', -⟩ | ⟨_, none, none'⟩
  · have held : graph.Holds (.symbol id) := Graph.holds_symbol_iff.mpr ⟨found, stored⟩
    have held' : graph'.Holds (.symbol id) := Graph.holds_symbol_iff.mpr ⟨found', stored'⟩
    have depths : Encoder.depthBound graph = Encoder.depthBound graph' := by
      rw [Encoder.depthBound, Encoder.depthBound, unpacks.sameOutline.length_eq, unpacks.types]
    unfold name
    rw [outcome_encode formed machine held, outcome_encode formed' machine held', depths,
      Plan.within_eq unpacks, Plan.declaration_eq_of_unpacks unpacks]
  · rw [name_of_missing machine none, name_of_missing machine none']

/-- Where the last pack of specializations is replaced by what it holds, every declaration keeps its
name, or its refusal, and every symbol and every type its spelling. -/
theorem name_and_spelling_unpacks (built : graph.Built) (built' : graph'.Built)
    (unpacks : graph.Unpacks graph') :
    (∀ (target : Target) (dialect : Dialect) id,
      name graph { target with abi := .microsoft dialect } id =
        name graph' { target with abi := .microsoft dialect } id) ∧
    (∀ id, graph.spellSymbol id = graph'.spellSymbol id) ∧
    ∀ id, graph.spellType id = graph'.spellType id :=
  ⟨fun _ _ => name_unpacks built.wellFormed built'.wellFormed unpacks _, unpacks.spellSymbol_eq,
    unpacks.spellType_eq⟩

end

/-- `void put(List!(int, bool, 3), List!())` and `void all(List!(int, bool, 3)[])`, with packs. -/
def packed : Graph where
  symbols :=
    [{ ident := "app", sort := .moduleScope },
      { ident := "List", parent := some ⟨0⟩, sort := .template none },
      { ident := "List", parent := some ⟨0⟩
        sort := .specialization ⟨1⟩ [.type ⟨0⟩, .pack [.type ⟨1⟩, .value ⟨0⟩ 3]] },
      { ident := "List", parent := some ⟨0⟩, sort := .specialization ⟨1⟩ [.pack []] },
      { ident := "put", parent := some ⟨0⟩, sort := .function { type := ⟨5⟩ } },
      { ident := "all", parent := some ⟨0⟩, sort := .function { type := ⟨7⟩ } }]
  types :=
    [{ form := .basic .int32 }, { form := .basic .bool }, { form := .basic .void },
      { form := .record ⟨2⟩ }, { form := .record ⟨3⟩ },
      { form := .function { result := ⟨2⟩, params := [{ type := ⟨3⟩ }, { type := ⟨4⟩ }] } },
      { form := .dynamicArray ⟨3⟩ },
      { form := .function { result := ⟨2⟩, params := [{ type := ⟨6⟩ }] } }]

/-- The same functions without packs. -/
def unpacked : Graph where
  symbols :=
    [{ ident := "app", sort := .moduleScope },
      { ident := "List", parent := some ⟨0⟩, sort := .template none },
      { ident := "List", parent := some ⟨0⟩
        sort := .specialization ⟨1⟩ [.type ⟨0⟩, .type ⟨1⟩, .value ⟨0⟩ 3] },
      { ident := "List", parent := some ⟨0⟩, sort := .specialization ⟨1⟩ [] },
      { ident := "put", parent := some ⟨0⟩, sort := .function { type := ⟨5⟩ } },
      { ident := "all", parent := some ⟨0⟩, sort := .function { type := ⟨7⟩ } }]
  types := packed.types

theorem packed_built : packed.Built :=
  Graph.built_of_takeAll?
    [.symbol { ident := "app", sort := .moduleScope },
      .symbol { ident := "List", parent := some ⟨0⟩, sort := .template none },
      .type { form := .basic .int32 }, .type { form := .basic .bool },
      .type { form := .basic .void },
      .specialization ⟨1⟩ [.type ⟨0⟩, .pack [.type ⟨1⟩, .value ⟨0⟩ 3]],
      .specialization ⟨1⟩ [.pack []], .type { form := .record ⟨2⟩ }, .type { form := .record ⟨3⟩ },
      .type { form := .function { result := ⟨2⟩, params := [{ type := ⟨3⟩ }, { type := ⟨4⟩ }] } },
      .type { form := .dynamicArray ⟨3⟩ },
      .type { form := .function { result := ⟨2⟩, params := [{ type := ⟨6⟩ }] } },
      .symbol { ident := "put", parent := some ⟨0⟩, sort := .function { type := ⟨5⟩ } },
      .symbol { ident := "all", parent := some ⟨0⟩, sort := .function { type := ⟨7⟩ } }] rfl

theorem unpacked_built : unpacked.Built :=
  Graph.built_of_takeAll?
    [.symbol { ident := "app", sort := .moduleScope },
      .symbol { ident := "List", parent := some ⟨0⟩, sort := .template none },
      .type { form := .basic .int32 }, .type { form := .basic .bool },
      .type { form := .basic .void },
      .specialization ⟨1⟩ [.type ⟨0⟩, .type ⟨1⟩, .value ⟨0⟩ 3],
      .specialization ⟨1⟩ [], .type { form := .record ⟨2⟩ }, .type { form := .record ⟨3⟩ },
      .type { form := .function { result := ⟨2⟩, params := [{ type := ⟨3⟩ }, { type := ⟨4⟩ }] } },
      .type { form := .dynamicArray ⟨3⟩ },
      .type { form := .function { result := ⟨2⟩, params := [{ type := ⟨6⟩ }] } },
      .symbol { ident := "put", parent := some ⟨0⟩, sort := .function { type := ⟨5⟩ } },
      .symbol { ident := "all", parent := some ⟨0⟩, sort := .function { type := ⟨7⟩ } }] rfl

theorem packed_unpacks : packed.Unpacks unpacked where
  symbols :=
    have three : TemplateArg.Unpacks [.type ⟨0⟩, .pack [.type ⟨1⟩, .value ⟨0⟩ 3]]
        [.type ⟨0⟩, .type ⟨1⟩, .value ⟨0⟩ 3] :=
      @TemplateArg.Unpacks.last [.type ⟨0⟩] [.type ⟨1⟩, .value ⟨0⟩ 3]
        (by simp [TemplateArg.isPack]) (by simp [TemplateArg.isPack])
    have none : TemplateArg.Unpacks [.pack []] [] :=
      @TemplateArg.Unpacks.last [] [] (by simp) (by simp)
    .cons (.same _) <| .cons (.same _) <| .cons (.specialization three) <|
      .cons (.specialization none) <| .cons (.same _) <| .cons (.same _) .nil
  types := rfl

theorem name_and_spelling_unpacked :
    nameFor packed .microsoft64 ⟨4⟩ = .ok "?put@@YAXU?$List@H_N$02@@U?$List@@@@Z" ∧
      nameFor unpacked .microsoft64 ⟨4⟩ = .ok "?put@@YAXU?$List@H_N$02@@U?$List@@@@Z" ∧
      nameFor packed .microsoft64 ⟨5⟩ = .error (.type "app.List!(int, bool, 3)[]" .noCounterpart) ∧
      nameFor unpacked .microsoft64 ⟨5⟩ =
        .error (.type "app.List!(int, bool, 3)[]" .noCounterpart) ∧
      unpacked.spellSymbol ⟨3⟩ = .ok "app.List!()" ∧
      unpacked.spellType ⟨4⟩ = .ok "app.List!()" := by
  obtain ⟨names, symbols, types⟩ :=
    name_and_spelling_unpacks packed_built unpacked_built packed_unpacks
  have put : nameFor packed .microsoft64 ⟨4⟩ = .ok "?put@@YAXU?$List@H_N$02@@U?$List@@@@Z" := by
    decide +kernel
  have all : nameFor packed .microsoft64 ⟨5⟩ =
      .error (.type "app.List!(int, bool, 3)[]" .noCounterpart) := by decide +kernel
  have empty : packed.spellSymbol ⟨3⟩ = .ok "app.List!()" := by decide +kernel
  have record : packed.spellType ⟨4⟩ = .ok "app.List!()" := by decide +kernel
  exact ⟨put, (names .microsoft64 .modern ⟨4⟩).symm.trans put, all,
    (names .microsoft64 .modern ⟨5⟩).symm.trans all, (symbols ⟨3⟩).symm.trans empty,
    (types ⟨4⟩).symm.trans record⟩

end Microsoft

end LinkName
