import LinkName.Proofs.Invariance
import LinkName.Proofs.Itanium.Siblings
import LinkName.Proofs.Microsoft.Acceptance

/-!
How a parameter is passed is a way to write its type. A parameter that is passed by reference has the
type of a reference, a lazy one that of a pointer to a function; the `const` of a value is no part of
an Itanium name. Functions whose parameters come to the same types have one name, whether or not the
graph holds these types.
-/
namespace LinkName

namespace Graph

/-- The type of the second parameter says what the first one says by how it is passed. -/
inductive SpellsPassing (graph : Graph) : Param → Param → Prop
  | same (param : Param) : SpellsPassing graph param param
  | ref {type reference : TypeId}
      (stored : graph.type reference = .ok { form := .reference type }) :
      SpellsPassing graph { type, passing := .ref } { type := reference }
  | out {type reference : TypeId}
      (stored : graph.type reference = .ok { form := .reference type }) :
      SpellsPassing graph { type, passing := .out } { type := reference }
  | lazy {type function pointer : TypeId}
      (thunk : graph.type function = .ok { form := .function { result := type } })
      (stored : graph.type pointer = .ok { form := .pointer function }) :
      SpellsPassing graph { type, passing := .lazy } { type := pointer }

/-- Besides, the second parameter may be without the `const` that is dropped from the first. -/
inductive SpellsParam (graph : Graph) : Param → Param → Prop
  | passing {param param' : Param} (spells : graph.SpellsPassing param param') :
      SpellsParam graph param param'
  | mutable {type type' : TypeId} {node : TypeNode} (stored : graph.type type = .ok node)
      (drops : node.dropsConst = true) (stored' : graph.type type' = .ok node.mutable) :
      SpellsParam graph { type } { type := type' }

/-- Functions that differ in their parameters only, one by one as given. -/
def DifferInParams (graph : Graph) (relates : Param → Param → Prop) (id id' : SymbolId) : Prop :=
  ∃ (symbol : Symbol) (info : FunctionInfo) (other : TypeId) (signature : Signature)
    (params : List Param) (quals quals' : Qualifiers),
    graph.symbol id = .ok { symbol with sort := .function info } ∧
    graph.symbol id' = .ok { symbol with sort := .function { info with type := other } } ∧
    graph.type info.type = .ok { form := .function signature, quals } ∧
    graph.type other = .ok { form := .function { signature with params }, quals := quals' } ∧
    List.Forall₂ relates signature.params params

/-- The graph `part` is found in `graph`, and the symbol `first` of it there as `id`. -/
def Offers (graph part : Graph) (id first : SymbolId) : Prop :=
  ∃ labels, part.WellFormed ∧ part.Carried graph labels ∧ part.Holds (.symbol first) ∧
    labels.symbol first = id

variable {graph : Graph} {id id' : SymbolId} {relates : Param → Param → Prop}

theorem DifferInParams.holds (differ : graph.DifferInParams relates id id') :
    graph.Holds (.symbol id) ∧ graph.Holds (.symbol id') := by
  obtain ⟨symbol, info, other, -, -, -, -, stored, stored', -⟩ := differ
  exact ⟨holds_symbol_iff.mpr ⟨_, stored⟩, holds_symbol_iff.mpr ⟨_, stored'⟩⟩

/-- A parameter with its type as a tree. -/
def paramTree (graph : Graph) (param : Param) : Passing × TypeTree :=
  (param.passing, graph.tree param.type)

theorem SpellsPassing.passed_eq (formed : graph.WellFormed) {param param' : Param}
    (spells : graph.SpellsPassing param param') :
    TypeTree.passed (graph.paramTree param) = TypeTree.passed (graph.paramTree param') := by
  cases spells with
  | same => rfl
  | ref stored | out stored =>
      simp only [paramTree, TypeTree.passed]
      rw [formed.tree_eq stored]
      rfl
  | lazy thunk stored =>
      simp only [paramTree, TypeTree.passed]
      rw [formed.tree_eq stored]
      simp only [TypeNode.tree]
      rw [formed.tree_eq thunk]
      rfl

end Graph

/-! ## Scripts -/

theorem map_eq_of_forall₂ {α β : Type} {relates : α → α → Prop} {change : α → β}
    {list list' : List α} (related : List.Forall₂ relates list list')
    (same : ∀ element element', relates element element' → change element = change element') :
    list.map change = list'.map change := by
  rw [← List.forall₂_eq_eq_eq, List.forall₂_map_left_iff, List.forall₂_map_right_iff]
  exact related.imp same

theorem isEmpty_map_eq_of_forall₂ {α β : Type} {relates : α → α → Prop} {change : α → β}
    {list list' : List α} (related : List.Forall₂ relates list list') :
    (list.map change).isEmpty = (list'.map change).isEmpty := by
  cases related <;> rfl

namespace TypeTree

theorem not_isStaticArray_of_dropsConst {tree : TypeTree} (drops : tree.dropsConst = true) :
    tree.isStaticArray = false := by
  cases tree with
  | layer around => cases around <;> first | rfl | cases drops
  | _ => rfl

theorem withoutConst_mutable {tree : TypeTree} (drops : tree.dropsConst = true) :
    tree.mutable.withoutConst = tree.withoutConst := by
  have dropped : tree.mutable.dropsConst = false := by
    cases tree with
    | layer around => cases around <;> rfl
    | named naming => cases naming <;> rfl
    | _ => rfl
  rw [withoutConst, withoutConst, drops, dropped]
  rfl

theorem isStaticArray_mutable (tree : TypeTree) : tree.mutable.isStaticArray = tree.isStaticArray := by
  cases tree with
  | layer around => cases around <;> rfl
  | _ => rfl

end TypeTree

namespace Itanium

variable {graph : Graph} {machine : Target} {plan : Plan} {id id' : SymbolId}

theorem Plan.parameter_eq (formed : graph.WellFormed) {param param' : Param}
    (spells : graph.SpellsParam param param') :
    plan.parameter graph (graph.paramTree param) = plan.parameter graph (graph.paramTree param') := by
  cases spells with
  | passing spells => rw [parameter, parameter, spells.passed_eq formed]
  | @mutable type type' node stored drops stored' =>
      have drops : (graph.tree type).dropsConst = true := by
        rw [formed.tree_eq stored, TypeNode.dropsConst_tree, drops]
      have same : graph.tree type' = (graph.tree type).mutable := by
        rw [formed.tree_eq stored', formed.tree_eq stored, TypeNode.mutable_tree]
      have single := TypeTree.not_isStaticArray_of_dropsConst drops
      simp only [parameter, Graph.paramTree, TypeTree.passed, same, TypeTree.isStaticArray_mutable,
        single, TypeTree.withoutConst_mutable drops, Bool.false_eq_true, if_false]

theorem Plan.parameters_eq (formed : graph.WellFormed) {params params' : List Param}
    (related : List.Forall₂ graph.SpellsParam params params') (isVariadic : Bool) :
    plan.parameters graph (params.map graph.paramTree) isVariadic =
      plan.parameters graph (params'.map graph.paramTree) isVariadic := by
  have each : params.map (plan.parameter graph ∘ graph.paramTree) =
      params'.map (plan.parameter graph ∘ graph.paramTree) :=
    map_eq_of_forall₂ related fun _ _ spells => parameter_eq formed spells
  have empty : (params.map graph.paramTree).isEmpty = (params'.map graph.paramTree).isEmpty :=
    isEmpty_map_eq_of_forall₂ related
  rw [parameters, parameters, List.map_map, List.map_map, empty]
  exact congrArg (fun scripts => Script.append (.concat scripts) _) each

/-- Functions whose parameters come to the same types have one script. -/
theorem Plan.declaration_eq (formed : graph.WellFormed)
    (differ : graph.DifferInParams graph.SpellsParam id id') :
    plan.declaration graph machine id = plan.declaration graph machine id' := by
  obtain ⟨symbol, info, other, signature, params, quals, quals', stored, stored', typed, typed',
    related⟩ := differ
  have source : plan.sourceName graph id = plan.sourceName graph id' := by
    rw [sourceName_eq stored rfl, sourceName_eq stored' rfl]
  have path : plan.functionPath graph info id =
      plan.functionPath graph { info with type := other } id' :=
    functionPath_congr stored stored' rfl rfl rfl rfl rfl rfl
  have listed : plan.parameters graph (signature.params.map graph.paramTree) signature.variadic =
      plan.parameters graph (params.map graph.paramTree) signature.variadic :=
    parameters_eq formed related _
  simp only [declaration, stored, stored', Script.ofExcept, functionName, formed.tree_eq typed,
    formed.tree_eq typed', TypeNode.tree, Signature.convention, path, source]
  exact congrArg (fun params => Script.append _ (if signature.linkage = .cpp then .append _ params
    else _)) listed

end Itanium

namespace Microsoft

variable {graph : Graph} {machine : Target} {plan : Plan} {id id' : SymbolId}

theorem Plan.parameters_eq (formed : graph.WellFormed) {params params' : List Param}
    (related : List.Forall₂ graph.SpellsPassing params params') (isVariadic : Bool) :
    plan.parameters graph (params.map graph.paramTree) isVariadic =
      plan.parameters graph (params'.map graph.paramTree) isVariadic := by
  have each : params.map (plan.parameter graph ∘ graph.paramTree) =
      params'.map (plan.parameter graph ∘ graph.paramTree) :=
    map_eq_of_forall₂ related fun _ _ spells => by
      simp only [Function.comp_apply, parameter, spells.passed_eq formed]
  have empty : (params.map graph.paramTree).isEmpty = (params'.map graph.paramTree).isEmpty :=
    isEmpty_map_eq_of_forall₂ related
  rw [parameters, parameters, List.map_map, List.map_map, empty]
  exact congrArg (fun scripts => Script.append (.concat scripts) _) each

/-- Functions whose parameters come to the same types have one script, or there is no convention for
calling them and both are refused. -/
theorem Plan.declaration_eq (formed : graph.WellFormed) (machine : Target) (plan : Plan)
    (differ : graph.DifferInParams graph.SpellsPassing id id') :
    plan.declaration graph machine id = plan.declaration graph machine id' ∨
      ¬ (plan.declaration graph machine id).Succeeds ∧
        ¬ (plan.declaration graph machine id').Succeeds := by
  obtain ⟨symbol, info, other, signature, params, quals, quals', stored, stored', typed, typed',
    related⟩ := differ
  have names : plan.qualifiedName graph machine id = plan.qualifiedName graph machine id' :=
    qualifiedName_congr stored stored'
  have listed : plan.parameters graph (signature.params.map graph.paramTree) signature.variadic =
      plan.parameters graph (params.map graph.paramTree) signature.variadic :=
    parameters_eq formed related _
  simp only [declaration, stored, stored', Script.ofExcept, functionName, formed.tree_eq typed,
    formed.tree_eq typed', TypeNode.tree, Signature.convention, names, functionType]
  cases convention? machine signature.linkage (info.needsThis && !signature.variadic) with
  | none =>
      refine .inr ⟨?_, ?_⟩ <;> simp [Script.succeeds_append, Script.not_succeeds_refuse]
  | some code =>
      exact .inl (congrArg (fun params => Script.append _ (.append _ (.append _ (.append _
        (.append _ params))))) listed)

end Microsoft

/-! ## Names -/

section

variable {graph : Graph} {id id' : SymbolId}

theorem Itanium.nameFor_eq_of_differ (formed : graph.WellFormed) (target : Target)
    (differ : graph.DifferInParams graph.SpellsParam id id') :
    nameFor graph target id = nameFor graph target id' := by
  rw [nameFor_eq_run formed differ.holds.1, nameFor_eq_run formed differ.holds.2, nameScript,
    nameScript, Plan.declaration_eq formed differ]

theorem Microsoft.nameFor_iff_of_differ (formed : graph.WellFormed) (order : graph.Order)
    (target : Target) (differ : graph.DifferInParams graph.SpellsPassing id id') (text : String) :
    nameFor graph target id = .ok text ↔ nameFor graph target id' = .ok text := by
  obtain ⟨held, held'⟩ := differ.holds
  rcases Plan.declaration_eq formed target (Plan.settled order target)
    differ with same | ⟨refused, refused'⟩
  · rw [nameFor_eq_run formed held, nameFor_eq_run formed held', nameScript_eq formed order held,
      nameScript_eq formed order held', same]
  · rw [← exists_nameFor_iff formed order held] at refused
    rw [← exists_nameFor_iff formed order held'] at refused'
    exact iff_of_false (fun named => refused ⟨text, named⟩) fun named => refused' ⟨text, named⟩

variable {part : Graph} {first : SymbolId}

theorem Graph.Offers.itanium_name (formed : graph.WellFormed) (offers : graph.Offers part id first)
    (target : Target) :
    Itanium.nameFor part target first = Itanium.nameFor graph target id := by
  obtain ⟨labels, formed', carried, held, rfl⟩ := offers
  exact (carried.itanium_name formed' formed target held).symm

theorem Graph.Offers.microsoft_name (formed : graph.WellFormed) (offers : graph.Offers part id first)
    (target : Target) :
    Microsoft.nameFor part target first = Microsoft.nameFor graph target id := by
  obtain ⟨labels, formed', carried, held, rfl⟩ := offers
  exact (carried.microsoft_name formed' formed target held).symm

end

/-- Functions whose parameters come to the same types, in whatever way each is passed, have one name
or are both refused. The types that a way of passing derives need not be in the graph: in a part of
it that may lack them, the function has the same name. -/
theorem nameFor_passing {graph : Graph} (built : graph.Built) (target : Target) (id id' : SymbolId) :
    (graph.DifferInParams graph.SpellsParam id id' →
      Itanium.nameFor graph target id = Itanium.nameFor graph target id' ∧
      ∀ part first, graph.Offers part id first →
        Itanium.nameFor part target first = Itanium.nameFor graph target id') ∧
    (graph.DifferInParams graph.SpellsPassing id id' → ∀ text,
      (Microsoft.nameFor graph target id = .ok text ↔
        Microsoft.nameFor graph target id' = .ok text) ∧
      ∀ part first, graph.Offers part id first →
        (Microsoft.nameFor part target first = .ok text ↔
          Microsoft.nameFor graph target id' = .ok text)) := by
  have formed := built.wellFormed
  constructor
  · intro differ
    have same := Itanium.nameFor_eq_of_differ formed target differ
    exact ⟨same, fun part first offers => (offers.itanium_name formed target).trans same⟩
  · intro differ text
    have same := Microsoft.nameFor_iff_of_differ formed formed.order target differ text
    refine ⟨same, fun part first offers => ?_⟩
    rw [offers.microsoft_name formed target]
    exact same

/-- A parameter for each way of passing, the last of which is `const`. -/
def fillSignature : Signature where
  result := ⟨2⟩
  params :=
    [{ type := ⟨0⟩, passing := .ref }, { type := ⟨0⟩, passing := .out },
      { type := ⟨0⟩, passing := .lazy }, { type := ⟨1⟩ }]

/-- A function with these parameters. -/
def filling : Graph where
  symbols :=
    [{ ident := "app", sort := .moduleScope },
      { ident := "fill", parent := some ⟨0⟩, sort := .function { type := ⟨3⟩ } }]
  types :=
    [{ form := .basic .int32 }, { form := .basic .int32, quals := { isConst := true } },
      { form := .basic .void }, { form := .function fillSignature }]

/-- The same function, along with the ones that are given the derived types: the first of them keeps
the `const` and the second does not. -/
def fillings : Graph where
  symbols := filling.symbols ++
    [{ ident := "fill", parent := some ⟨0⟩, sort := .function { type := ⟨7⟩ } },
      { ident := "fill", parent := some ⟨0⟩, sort := .function { type := ⟨8⟩ } }]
  types := filling.types ++
    [{ form := .reference ⟨0⟩ }, { form := .function { result := ⟨0⟩ } }, { form := .pointer ⟨5⟩ },
      { form := .function
          { result := ⟨2⟩,
            params := [{ type := ⟨4⟩ }, { type := ⟨4⟩ }, { type := ⟨6⟩ }, { type := ⟨1⟩ }] } },
      { form := .function
          { result := ⟨2⟩,
            params := [{ type := ⟨4⟩ }, { type := ⟨4⟩ }, { type := ⟨6⟩ }, { type := ⟨0⟩ }] } }]

theorem filling_built : filling.Built :=
  Graph.built_of_takeAll?
    [.symbol { ident := "app", sort := .moduleScope }, .type { form := .basic .int32 },
      .type { form := .basic .int32, quals := { isConst := true } }, .type { form := .basic .void },
      .type { form := .function fillSignature },
      .symbol { ident := "fill", parent := some ⟨0⟩, sort := .function { type := ⟨3⟩ } }] rfl

theorem fillings_built : fillings.Built :=
  Graph.built_of_takeAll?
    [.symbol { ident := "app", sort := .moduleScope }, .type { form := .basic .int32 },
      .type { form := .basic .int32, quals := { isConst := true } }, .type { form := .basic .void },
      .type { form := .function fillSignature },
      .symbol { ident := "fill", parent := some ⟨0⟩, sort := .function { type := ⟨3⟩ } },
      .type { form := .reference ⟨0⟩ }, .type { form := .function { result := ⟨0⟩ } },
      .type { form := .pointer ⟨5⟩ },
      .type
        { form := .function
            { result := ⟨2⟩,
              params := [{ type := ⟨4⟩ }, { type := ⟨4⟩ }, { type := ⟨6⟩ }, { type := ⟨1⟩ }] } },
      .type
        { form := .function
            { result := ⟨2⟩,
              params := [{ type := ⟨4⟩ }, { type := ⟨4⟩ }, { type := ⟨6⟩ }, { type := ⟨0⟩ }] } },
      .symbol { ident := "fill", parent := some ⟨0⟩, sort := .function { type := ⟨7⟩ } },
      .symbol { ident := "fill", parent := some ⟨0⟩, sort := .function { type := ⟨8⟩ } }] rfl

/-- The function and the others differ in their parameters, the last of which are `last`. -/
theorem fillings_differ {relates : Param → Param → Prop} {id : SymbolId} {type : TypeId}
    {last : Param}
    (stored : fillings.symbols[id.index]? =
      some { ident := "fill", parent := some ⟨0⟩, sort := .function { type } })
    (typed : fillings.types[type.index]? =
      some
        { form := .function
            { result := ⟨2⟩,
              params := [{ type := ⟨4⟩ }, { type := ⟨4⟩ }, { type := ⟨6⟩ }, last] } })
    (passes : ∀ {param param'}, fillings.SpellsPassing param param' → relates param param')
    (also : relates { type := ⟨1⟩ } last) : fillings.DifferInParams relates ⟨1⟩ id := by
  refine ⟨{ ident := "fill", parent := some ⟨0⟩, sort := .function { type := ⟨3⟩ } },
    { type := ⟨3⟩ }, type, fillSignature, _, {}, {}, rfl, Graph.symbol_eq_ok_iff.mpr stored, rfl,
    Graph.type_eq_ok_iff.mpr typed, ?_⟩
  have ref : fillings.SpellsPassing { type := ⟨0⟩, passing := .ref } { type := ⟨4⟩ } := .ref rfl
  have out : fillings.SpellsPassing { type := ⟨0⟩, passing := .out } { type := ⟨4⟩ } := .out rfl
  have thunk : fillings.type ⟨5⟩ = .ok { form := .function { result := ⟨0⟩ } } := rfl
  have called : fillings.SpellsPassing { type := ⟨0⟩, passing := .lazy } { type := ⟨6⟩ } :=
    .lazy thunk rfl
  exact .cons (passes ref) (.cons (passes out) (.cons (passes called) (.cons also .nil)))

theorem fillings_offers : fillings.Offers filling ⟨1⟩ ⟨1⟩ := by
  refine ⟨.id, filling_built.wellFormed, ⟨fun _ _ _ _ same => same, ?_, ?_⟩, by decide, rfl⟩
  · rintro ⟨_ | _ | index⟩ symbol stored <;> cases stored <;> rfl
  · rintro ⟨_ | _ | _ | _ | index⟩ node stored <;> cases stored <;> rfl

/-- The function has the name of the one without `const` in the Itanium scheme and that of the one
with it in the Microsoft scheme, also where the graph holds it alone. -/
theorem nameFor_passing_fillings :
    Itanium.nameFor fillings .itanium64 ⟨1⟩ = Itanium.nameFor fillings .itanium64 ⟨3⟩ ∧
    Itanium.nameFor filling .itanium64 ⟨1⟩ = Itanium.nameFor fillings .itanium64 ⟨3⟩ ∧
    Itanium.nameFor fillings .itanium64 ⟨3⟩ = .ok "_Z4fillRiS_PFivEi" ∧
    Microsoft.nameFor fillings .microsoft64 ⟨1⟩ = .ok "?fill@@YAXAEAH0P6AHXZH@Z" ∧
    Microsoft.nameFor filling .microsoft64 ⟨1⟩ = .ok "?fill@@YAXAEAH0P6AHXZH@Z" := by
  have constant :
      fillings.type ⟨1⟩ = .ok { form := .basic .int32, quals := { isConst := true } } := rfl
  have differ : fillings.DifferInParams fillings.SpellsParam ⟨1⟩ ⟨3⟩ :=
    fillings_differ rfl rfl (.passing ·) (.mutable constant rfl rfl)
  have differ' : fillings.DifferInParams fillings.SpellsPassing ⟨1⟩ ⟨2⟩ :=
    fillings_differ rfl rfl id (.same _)
  have itanium := (nameFor_passing fillings_built .itanium64 ⟨1⟩ ⟨3⟩).1 differ
  have microsoft := (nameFor_passing fillings_built .microsoft64 ⟨1⟩ ⟨2⟩).2 differ'
  have named : Microsoft.nameFor fillings .microsoft64 ⟨2⟩ = .ok "?fill@@YAXAEAH0P6AHXZH@Z" := by
    decide +kernel
  exact ⟨itanium.1, itanium.2 _ _ fillings_offers, by decide +kernel, (microsoft _).1.mpr named,
    ((microsoft _).2 _ _ fillings_offers).mpr named⟩

end LinkName
