import LinkName.Proofs.Microsoft.Constness
import LinkName.Proofs.Microsoft.Refusals
import LinkName.Proofs.Microsoft.View

/-!
What the Microsoft scheme accepts is what it can write. So a function is refused if a type that C++
does not have is in view in one of its parameters, and what is out of view does not decide.
-/
namespace LinkName

namespace Microsoft

namespace Script

theorem succeeds_concat {scripts : List Script} :
    (concat scripts).Succeeds ↔ ∀ script ∈ scripts, script.Succeeds := by
  induction scripts with
  | nil => simp [concat, succeeds_write]
  | cons first rest ih => rw [concat, succeeds_append, ih, List.forall_mem_cons]

theorem succeeds_lead {tokens : List Token} {body : Script} :
    (append (.write tokens) body).Succeeds ↔ body.Succeeds := by
  rw [succeeds_append, and_iff_right (succeeds_write tokens)]

end Script

open Script (succeeds_append succeeds_concat succeeds_lead succeeds_write succeeds_recorded
  succeeds_recordedAfter not_succeeds_refuse)

namespace Plan

variable {graph : Graph} {machine : Target} {plan : Plan} {named : Naming → SymbolId → Prop}

/-- A record, an enumeration or a class whose name can be written. -/
def CanName (graph : Graph) (machine : Target) (plan : Plan) (naming : Naming) (symbol : SymbolId) :
    Prop :=
  (∃ found lead, graph.symbol symbol = .ok found ∧
      namedLead machine naming found (.named naming symbol {}) {} = .ok lead) ∧
    (plan.qualifiedName graph machine symbol).Succeeds

theorem not_canName_typedef (symbol : SymbolId) : ¬ CanName graph machine plan .typedef symbol := by
  rintro ⟨⟨found, lead, -, none⟩, -⟩
  cases none

theorem succeeds_namedType {naming : Naming} {symbol : SymbolId} {quals : Qualifiers}
    {place : Place} :
    (plan.namedType graph machine naming symbol (.named naming symbol quals) place).Succeeds ↔
      CanName graph machine plan naming symbol := by
  unfold namedType CanName
  cases graph.symbol symbol with
  | error fault => exact iff_of_false (not_succeeds_refuse _) (by simp)
  | ok found =>
      simp only [Script.ofExcept, Except.ok.injEq]
      cases naming with
      | enumeration base =>
          simp only [namedLead]
          cases enumBase? base with
          | none => exact iff_of_false (not_succeeds_refuse _) (by simp)
          | some code => simp [succeeds_lead]
      | typedef => exact iff_of_false (not_succeeds_refuse _) (by simp [namedLead])
      | record | classRef => simp [namedLead, succeeds_lead]

/-- The plan can write exactly the accepted ones of the parts. -/
def WritesAccepted (machine : Target) (named : Naming → SymbolId → Prop) (plan : Plan)
    (parts : List Item) : Prop :=
  ∀ tree place, .type tree place ∈ parts → ((plan (.type tree place)).Succeeds ↔
    Accepted machine named tree)

theorem succeeds_array {tree : TypeTree} {place : Place}
    (writes : WritesAccepted machine named plan (Item.ofPointee tree place)) :
    (plan.array machine tree place).Succeeds ↔ Accepted machine named tree.shape.2 := by
  rw [array, succeeds_lead]
  exact writes _ _ List.mem_cons_self

theorem succeeds_pointee {tree : TypeTree} {place : Place}
    (writes : WritesAccepted machine named plan (Item.ofPointee tree place)) :
    (plan.pointee machine tree place).Succeeds ↔ Accepted machine named tree.shape.2 := by
  unfold pointee
  split
  · exact succeeds_array writes
  · next single =>
    rw [shape_eq_self (by simpa using single)]
    exact writes _ _ (List.mem_cons_of_mem _ List.mem_cons_self)

theorem succeeds_parameter {param : Passing × TypeTree} :
    (plan.parameter graph param).Succeeds ↔ (TypeTree.passed param).isStaticArray = false ∧
      (plan (.type (TypeTree.passed param) {})).Succeeds := by
  unfold parameter
  cases (TypeTree.passed param).isStaticArray with
  | true => exact iff_of_false (not_succeeds_refuse _) (by simp)
  | false => simp

theorem succeeds_functionType {result : TypeTree} {params : List (Passing × TypeTree)}
    {convention : Convention} {quals : Qualifiers} {needsThis isStructor : Bool} :
    (plan.functionType graph machine (.function result params convention quals) needsThis
      isStructor).Succeeds ↔
        (convention? machine convention.linkage (needsThis && !convention.variadic)).isSome ∧
          (isStructor = false →
            (plan (.type (TypeTree.returned convention result) { returned := true })).Succeeds) ∧
          ∀ param ∈ params, (plan.parameter graph param).Succeeds := by
  simp only [functionType]
  cases convention? machine convention.linkage (needsThis && !convention.variadic) with
  | none => exact iff_of_false (not_succeeds_refuse _) (by simp)
  | some code =>
      have returned : (plan.result isStructor convention result).Succeeds ↔ (isStructor = false →
          (plan (.type (TypeTree.returned convention result) { returned := true })).Succeeds) := by
        cases isStructor with
        | true => exact iff_of_true (succeeds_write _) (by simp)
        | false => exact succeeds_lead.trans (by simp)
      simp only [succeeds_append, returned, parameters, succeeds_concat,
        List.forall_mem_map, succeeds_write, and_true, Option.isSome_some, true_and]

theorem accepted_callback_iff {result : TypeTree} {params : List (Passing × TypeTree)}
    {convention : Convention} {quals further : Qualifiers} (native : quals.isForeign = false)
    (writes : WritesAccepted machine named plan
      (Item.ofFunction (.function result params convention further))) :
    (plan.functionType graph machine (.function result params convention further) false
      false).Succeeds ↔
        Accepted machine named (.layer .pointer (.function result params convention further) quals) := by
  have returned := writes _ _ List.mem_cons_self
  have each : ∀ param ∈ params, (plan.parameter graph param).Succeeds ↔
      (TypeTree.passed param).isStaticArray = false ∧
        Accepted machine named (TypeTree.passed param) := by
    intro param listed
    rw [succeeds_parameter, writes _ _ (List.mem_cons_of_mem _ (List.mem_map_of_mem listed))]
  rw [succeeds_functionType, imp_iff_right rfl, returned, Bool.false_and]
  constructor
  · rintro ⟨called, result, written⟩
    have fine := fun param listed => (each param listed).mp (written param listed)
    exact .callback native called result (fun param listed => (fine param listed).2)
      fun param listed => (fine param listed).1
  · intro accepted
    cases accepted with
    | indirect native points below => cases below
    | callback native called result others passed =>
        exact ⟨called, result, fun param listed =>
          (each param listed).mpr ⟨passed param listed, others param listed⟩⟩

theorem accepted_indirect_iff {around : Layer} {inner : TypeTree} {quals : Qualifiers}
    (native : quals.isForeign = false) (points : (around.isIndirection || around.isArray) = true)
    (data : ∀ result params convention further, inner ≠ .function result params convention further) :
    Accepted machine named (.layer around inner quals) ↔ Accepted machine named inner.shape.2 := by
  refine ⟨fun accepted => ?_, .indirect native points⟩
  cases accepted with
  | vector => cases points
  | indirect _ _ below => exact below
  | callback => exact absurd rfl (data _ _ _ _)

theorem succeeds_pointer {target : TypeTree} {quals : Qualifiers} {place : Place}
    (native : quals.isForeign = false)
    (writes : WritesAccepted machine named plan
      (Item.ofType graph (.layer .pointer target quals) place)) :
    (plan.pointer graph machine (.layer .pointer target quals) target place).Succeeds ↔
      Accepted machine named (.layer .pointer target quals) := by
  have pointees : WritesAccepted machine named plan (Item.ofPointee target place.below) :=
    fun tree here listed => writes tree here (List.mem_append_left _ listed)
  have whole := pointees _ _ (List.mem_cons_of_mem _ List.mem_cons_self)
  unfold pointer
  cases target with
  | function result params convention further =>
      rw [succeeds_recordedAfter]
      exact accepted_callback_iff native fun tree here listed =>
        writes tree here (List.mem_append_right _ listed)
  | layer around inner further =>
      rw [accepted_indirect_iff native rfl (by simp)]
      cases around with
      | staticArray dim => exact (succeeds_recorded.trans succeeds_lead).trans (succeeds_array pointees)
      | _ => exact (succeeds_recorded.trans succeeds_lead).trans whole
  | _ =>
      rw [accepted_indirect_iff native rfl (by simp)]
      exact (succeeds_recorded.trans succeeds_lead).trans whole

theorem succeeds_type {tree : TypeTree} {place : Place}
    (writes : WritesAccepted machine (CanName graph machine plan) plan (Item.ofType graph tree place)) :
    (plan.type graph machine tree place).Succeeds ↔
      Accepted machine (CanName graph machine plan) tree := by
  unfold type
  cases foreign : tree.isForeign with
  | true =>
      refine iff_of_false (not_succeeds_refuse _) fun accepted => ?_
      cases accepted <;> simp_all [TypeTree.isForeign, TypeTree.quals, Qualifiers.isForeign]
  | false =>
      have native : tree.quals.isForeign = false := foreign
      simp only [Bool.false_eq_true, if_false]
      cases tree with
      | basic basic quals =>
          dsimp only [basicType]
          cases known : builtin? machine basic with
          | none =>
              refine iff_of_false (not_succeeds_refuse _) ?_
              rintro ⟨-, some⟩
              simp [known] at some
          | some code =>
              refine iff_of_true ?_ (.basic native (by simp [known]))
              dsimp only
              split
              · exact succeeds_recorded.mpr (succeeds_write _)
              · exact succeeds_write _
      | layer around inner quals =>
          have pointees : WritesAccepted machine (CanName graph machine plan) plan
              (Item.ofPointee inner place.below) :=
            fun tree here listed => writes tree here (List.mem_append_left _ listed)
          cases around with
          | pointer => exact succeeds_pointer native writes
          | vector => exact iff_of_true (succeeds_recorded.mpr (succeeds_write _)) (.vector native)
          | reference | staticArray =>
              refine (succeeds_recorded.trans succeeds_lead).trans ((succeeds_pointee pointees).trans ?_)
              refine ⟨.indirect native rfl, fun accepted => ?_⟩
              cases accepted with
              | indirect _ _ below => exact below
          | dynamicArray | delegate =>
              refine iff_of_false (not_succeeds_refuse _) ?_
              rintro (_ | _ | ⟨-, points, -⟩)
              cases points
      | named naming symbol quals =>
          have names : (plan.namedType graph machine naming symbol (.named naming symbol quals)
              place).Succeeds ↔
                Accepted machine (CanName graph machine plan) (.named naming symbol quals) := by
            rw [succeeds_namedType]
            refine ⟨.named native, fun accepted => ?_⟩
            cases accepted with
            | named _ known => exact known
          cases naming with
          | typedef =>
              refine iff_of_false (not_succeeds_refuse _) ?_
              rintro (_ | _ | _ | _ | ⟨-, known⟩)
              exact not_canName_typedef symbol known
          | _ => exact succeeds_recorded.trans names
      | assocArray key value quals => exact iff_of_false (not_succeeds_refuse _) (by rintro ⟨⟩)
      | function result params convention quals =>
          exact iff_of_false (not_succeeds_refuse _) (by rintro ⟨⟩)

variable {order : graph.Order}

/-- A type can be written, wherever it stands, exactly if it is accepted. -/
theorem succeeds_settled (formed : graph.WellFormed) (order : graph.Order) (machine : Target)
    {tree : TypeTree} {place : Place} (held : ∀ symbol ∈ tree.symbols, graph.Holds (.symbol symbol)) :
    (settled order machine (.type tree place)).Succeeds ↔
      Accepted machine (CanName graph machine (settled order machine)) tree := by
  refine LinkName.Item.induction (Item.descends formed) order (motive := fun item =>
    ∀ tree place, item = .type tree place → ((settled order machine (.type tree place)).Succeeds ↔
      Accepted machine (CanName graph machine (settled order machine)) tree))
    ?_ (show (LinkName.Item.type tree place : Item).Held graph from held) tree place rfl
  rintro item held parts tree place rfl
  have unfolded : settled order machine (.type tree place) =
      type graph machine (settled order machine) tree place := settled_eq formed order held
  rw [unfolded]
  exact succeeds_type fun inner here listed => parts _ listed inner here rfl

theorem parameter_of_declaration (formed : graph.WellFormed) {id : SymbolId} {symbol : Symbol}
    {info : FunctionInfo} {signature : Signature} {quals : Qualifiers}
    (stored : graph.symbol id = .ok symbol) (sort : symbol.sort = .function info)
    (typed : graph.type info.type = .ok ⟨.function signature, quals⟩)
    (written : (plan.declaration graph machine id).Succeeds) {param : Param}
    (listed : param ∈ signature.params) :
    (plan.parameter graph (param.passing, graph.tree param.type)).Succeeds := by
  simp only [declaration, stored, Script.ofExcept, sort, functionName, formed.tree_eq typed,
    TypeNode.tree, succeeds_append, succeeds_functionType] at written
  exact written.2.2.2.2.2 _ (List.mem_map_of_mem listed)

end Plan

theorem Around.succeeds_iff {part part' script script' : Script}
    (around : Around part part' script script') (same : part.Succeeds ↔ part'.Succeeds) :
    script.Succeeds ↔ script'.Succeeds := by
  induction around with
  | refuse refusal refusal' => exact iff_of_false (not_succeeds_refuse _) (not_succeeds_refuse _)
  | part => exact same
  | before _ rest ih => rw [succeeds_append, succeeds_append, ih]
  | after first _ ih => rw [succeeds_append, succeeds_append, ih]

/-! ## Names of functions -/

variable {graph : Graph} {target : Target} {id : SymbolId}

/-- A symbol has a name exactly if its script can be written. -/
theorem exists_nameFor_iff (formed : graph.WellFormed) (order : graph.Order)
    (held : graph.Holds (.symbol id)) :
    (∃ text, nameFor graph target id = .ok text) ↔ (Plan.declaration graph target
      (Plan.settled order target) id).Succeeds := by
  have ends := Plan.declaration_steady target formed order held (Record.bounded 10)
    fun _ listed => absurd listed List.not_mem_nil
  rw [nameFor_eq_run formed held, nameScript_eq formed order held, Script.Succeeds]
  generalize Script.run _ (Record.bounded 10) = run, Script.verdict _ = verdict at ends ⊢
  cases ends with
  | refused refusal => exact iff_of_false (by rintro ⟨_, ⟨⟩⟩) (by rintro ⟨_, ⟨⟩⟩)
  | written => exact iff_of_true ⟨_, rfl⟩ rfl

end Microsoft

/-- A parameter as the Microsoft scheme sees it. -/
def Graph.view (graph : Graph) (param : Param) : TypeTree :=
  (TypeTree.passed (param.passing, graph.tree param.type)).inView

namespace Microsoft

variable {graph : Graph} {id : SymbolId}

/-- A parameter is written exactly if it is no array and is accepted. -/
theorem succeeds_param (formed : graph.WellFormed) (order : graph.Order) (machine : Target)
    (param : Param) (held : graph.Holds (.type param.type)) :
    ((Plan.settled order machine).parameter graph (param.passing, graph.tree param.type)).Succeeds ↔
      (graph.view param).isStaticArray = false ∧
        Accepted machine (Plan.CanName graph machine (Plan.settled order machine))
          (TypeTree.passed (param.passing, graph.tree param.type)) := by
  rw [Plan.succeeds_parameter, Graph.view, TypeTree.isStaticArray_inView,
    Plan.succeeds_settled formed order machine]
  rw [TypeTree.symbols_passed]
  exact formed.holds_symbols held

theorem holds_of_differ_param {id' : SymbolId} {passing : Passing} {type type' : TypeId}
    (formed : graph.WellFormed) (differ : graph.DifferInParam id id' passing type type') :
    graph.Holds (.type type) := by
  obtain ⟨symbol, info, other, signature, before, after, quals, quals', -, -, typed, -⟩ := differ
  exact formed.closed _ _ (Graph.mentions_param typed (List.mem_append_right before List.mem_cons_self))

/-- A function is refused if a type that C++ does not have is in view in one of its parameters. What
is out of view does not decide: functions that differ in one parameter, which looks the same, are
both named or both refused. -/
theorem nameFor_view {graph : Graph} (built : graph.Built) (target : Target) {id : SymbolId}
    {symbol : Symbol} {info : FunctionInfo} {signature : Signature} {quals : Qualifiers}
    (stored : graph.symbol id = .ok symbol) (sort : symbol.sort = .function info)
    (typed : graph.type info.type = .ok { form := .function signature, quals }) :
    (∀ param ∈ signature.params, (graph.view param).hasDOnly = true →
      ∃ refusal, nameFor graph target id = .error refusal) ∧
    ∀ id' passing type type', graph.DifferInParam id id' passing type type' →
      graph.view { type, passing } = graph.view { type := type', passing } →
        ((∃ text, nameFor graph target id = .ok text) ↔
          ∃ text, nameFor graph target id' = .ok text) := by
  have formed := built.wellFormed
  have order := formed.order
  have held : graph.Holds (.symbol id) := Graph.holds_symbol_iff.mpr ⟨symbol, stored⟩
  constructor
  · intro param listed dOnly
    cases named : nameFor graph target id with
    | error refusal => exact ⟨refusal, rfl⟩
    | ok text =>
        have written := (exists_nameFor_iff formed order held).mp ⟨text, named⟩
        have parameter := Plan.parameter_of_declaration formed stored sort typed written listed
        rw [succeeds_param formed order _ _ (formed.closed _ _ (Graph.mentions_param typed listed))]
          at parameter
        rw [Graph.view, parameter.2.hasDOnly_inView Plan.not_canName_typedef] at dOnly
        cases dOnly
  · intro id' passing type type' differ alike
    rw [exists_nameFor_iff formed order held,
      exists_nameFor_iff formed order (holds_of_differ differ).2]
    apply (around_of_differ formed differ _ _).succeeds_iff
    have here := succeeds_param formed order target { type, passing }
      (holds_of_differ_param formed differ)
    have there := succeeds_param formed order target { type := type', passing }
      (holds_of_differ_param formed differ.symm)
    rw [here, there, alike]
    exact and_congr_right fun _ => ⟨fun accepted => accepted.of_inView alike.symm,
      fun accepted => accepted.of_inView alike⟩

/-- Functions that take a pointer to an array, a function, a vector, an integer and an array. All but
the last are `shared`, or made of what is `shared`. -/
def vaults : Graph where
  symbols :=
    [{ ident := "app", sort := .moduleScope },
      { ident := "lock", parent := some ⟨0⟩, sort := .function { type := ⟨11⟩ } },
      { ident := "lock", parent := some ⟨0⟩, sort := .function { type := ⟨12⟩ } },
      { ident := "lock", parent := some ⟨0⟩, sort := .function { type := ⟨13⟩ } },
      { ident := "lock", parent := some ⟨0⟩, sort := .function { type := ⟨14⟩ } },
      { ident := "lock", parent := some ⟨0⟩, sort := .function { type := ⟨17⟩ } }]
  types :=
    [{ form := .basic .void }, { form := .basic .int32 },
      { form := .basic .int32, quals := { isShared := true } },
      { form := .staticArray 3 ⟨1⟩, quals := { isShared := true } },
      { form := .function { result := ⟨0⟩, params := [] }, quals := { isShared := true } },
      { form := .basic .float32, quals := { isShared := true } }, { form := .vector ⟨5⟩ },
      { form := .pointer ⟨3⟩ }, { form := .pointer ⟨4⟩ }, { form := .pointer ⟨6⟩ },
      { form := .pointer ⟨2⟩ },
      { form := .function { result := ⟨0⟩, params := [{ type := ⟨7⟩ }] } },
      { form := .function { result := ⟨0⟩, params := [{ type := ⟨8⟩ }] } },
      { form := .function { result := ⟨0⟩, params := [{ type := ⟨9⟩ }] } },
      { form := .function { result := ⟨0⟩, params := [{ type := ⟨10⟩ }] } },
      { form := .staticArray 3 ⟨1⟩ }, { form := .pointer ⟨15⟩ },
      { form := .function { result := ⟨0⟩, params := [{ type := ⟨16⟩ }] } }]

theorem vaults_built : vaults.Built :=
  Graph.built_of_takeAll?
    [.symbol { ident := "app", sort := .moduleScope }, .type { form := .basic .void },
      .type { form := .basic .int32 }, .type { form := .basic .int32, quals := { isShared := true } },
      .type { form := .staticArray 3 ⟨1⟩, quals := { isShared := true } },
      .type { form := .function { result := ⟨0⟩, params := [] }, quals := { isShared := true } },
      .type { form := .basic .float32, quals := { isShared := true } }, .type { form := .vector ⟨5⟩ },
      .type { form := .pointer ⟨3⟩ }, .type { form := .pointer ⟨4⟩ }, .type { form := .pointer ⟨6⟩ },
      .type { form := .pointer ⟨2⟩ },
      .type { form := .function { result := ⟨0⟩, params := [{ type := ⟨7⟩ }] } },
      .type { form := .function { result := ⟨0⟩, params := [{ type := ⟨8⟩ }] } },
      .type { form := .function { result := ⟨0⟩, params := [{ type := ⟨9⟩ }] } },
      .type { form := .function { result := ⟨0⟩, params := [{ type := ⟨10⟩ }] } },
      .type { form := .staticArray 3 ⟨1⟩ }, .type { form := .pointer ⟨15⟩ },
      .type { form := .function { result := ⟨0⟩, params := [{ type := ⟨16⟩ }] } },
      .symbol { ident := "lock", parent := some ⟨0⟩, sort := .function { type := ⟨11⟩ } },
      .symbol { ident := "lock", parent := some ⟨0⟩, sort := .function { type := ⟨12⟩ } },
      .symbol { ident := "lock", parent := some ⟨0⟩, sort := .function { type := ⟨13⟩ } },
      .symbol { ident := "lock", parent := some ⟨0⟩, sort := .function { type := ⟨14⟩ } },
      .symbol { ident := "lock", parent := some ⟨0⟩, sort := .function { type := ⟨17⟩ } }] rfl

/-- The two arrays look the same below a pointer. -/
theorem vaults_differ : vaults.DifferInParam ⟨1⟩ ⟨5⟩ .value ⟨7⟩ ⟨16⟩ :=
  ⟨{ ident := "lock", parent := some ⟨0⟩, sort := .moduleScope }, { type := ⟨11⟩ }, ⟨17⟩,
    { result := ⟨0⟩ }, [], [], {}, {}, rfl, rfl, rfl, rfl⟩

/-- The pointer to a `shared` integer is refused; that to an array is accepted because the one to a
`shared` array is. -/
theorem nameFor_view_vaults :
    ((vaults.view { type := ⟨10⟩ }).hasDOnly = true ∧
      ∃ refusal, nameFor vaults .microsoft64 ⟨4⟩ = .error refusal) ∧
    nameFor vaults .microsoft64 ⟨1⟩ = .ok "?lock@@YAXQEAY02H@Z" ∧
    vaults.view { type := ⟨7⟩ } = vaults.view { type := ⟨16⟩ } ∧
    ∃ text, nameFor vaults .microsoft64 ⟨5⟩ = .ok text := by
  have named : nameFor vaults .microsoft64 ⟨1⟩ = .ok "?lock@@YAXQEAY02H@Z" := by decide +kernel
  refine ⟨⟨rfl, ?_⟩, named, rfl, ?_⟩
  · exact (nameFor_view vaults_built .microsoft64 rfl rfl rfl).1 { type := ⟨10⟩ } (by simp) rfl
  · exact ((nameFor_view vaults_built .microsoft64 rfl rfl rfl).2 ⟨5⟩ .value ⟨7⟩ ⟨16⟩
      vaults_differ rfl).mp ⟨_, named⟩

/-- An array, a function and what a vector is made of may be `shared`. -/
theorem nameFor_vaults_accepted :
    ((vaults.tree ⟨7⟩).hasDOnly = true ∧
      nameFor vaults .microsoft64 ⟨1⟩ = .ok "?lock@@YAXQEAY02H@Z") ∧
    ((vaults.tree ⟨8⟩).hasDOnly = true ∧
      nameFor vaults .microsoft64 ⟨2⟩ = .ok "?lock@@YAXP6AXXZ@Z") ∧
    ((vaults.tree ⟨9⟩).hasDOnly = true ∧
      nameFor vaults .microsoft64 ⟨3⟩ = .ok "?lock@@YAXPET__m128@@@Z") := by
  refine ⟨⟨rfl, ?_⟩, ⟨rfl, ?_⟩, rfl, ?_⟩ <;> decide +kernel

end Microsoft

end LinkName
