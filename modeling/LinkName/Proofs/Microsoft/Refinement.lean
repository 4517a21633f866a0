import LinkName.Proofs.Microsoft.Plan

/-!
The encoder follows its plan. Whatever the plan of a name does with trees, the encoder does with
handles, and it comes to the same tokens or to the same refusal.
-/
namespace LinkName.Microsoft

variable {graph : Graph}

/-- An encoding that does what a plan says. -/
structure FollowsPlan (parts : Encoding graph) (plan : Plan) : Prop where
  scope : ∀ id, graph.Holds (.symbol id) → ∀ base, Follows base (parts.scope id) (plan (.scope id))
  argument : ∀ owner arg, graph.Holds (.symbol owner) → graph.HoldsArg arg →
    ∀ base, Follows base (parts.argument owner arg) (plan (.argument owner arg))
  type : ∀ base id tree place, base.Unfolds id tree →
    Follows base (parts.type id place) (plan (.type tree place))

namespace FollowsPlan

variable {parts : Encoding graph} {plan : Plan} {base : Overlay graph} {id : SymbolId}
variable {machine : Target}

/-! ## Names -/

theorem arguments (follows : FollowsPlan parts plan) (formed : graph.WellFormed)
    {owner : SymbolId} (heldOwner : graph.Holds (.symbol owner)) {args : List TemplateArg}
    (held : TemplateArg.Each graph.Holds args) :
    ∀ base, Follows base (Microsoft.arguments parts owner args)
      (plan.arguments graph owner args) := by
  induction args with
  | nil => exact fun base => .write []
  | cons first rest ih =>
      intro base
      have general : Follows base
          (do return (← parts.argument owner first) ++ (← Microsoft.arguments parts owner rest))
          (.append (plan (.argument owner first)) (plan.arguments graph owner rest)) :=
        (follows.argument owner first heldOwner held.head base).bind fun later _ _ =>
          (ih held.tail later).bind fun _ _ _ => .pure _
      cases first with
      | pack inner =>
          cases rest with
          | nil =>
              simp only [Microsoft.arguments, Plan.arguments, Follows, Script.run_concat]
              exact LinkName.Follows.concat fun arg listed =>
                follows.argument owner arg heldOwner (held.of_pack.of_mem listed) base
          | cons second rest => exact .refuseArgument formed heldOwner held.head .packNotLast
      | _ => exact general

theorem repeatedScope (follows : FollowsPlan parts plan) (formed : graph.WellFormed)
    {symbol : Symbol} (stored : graph.symbol id = .ok symbol) :
    Follows base (Microsoft.repeatedScope machine parts symbol)
      (plan.repeatedScope machine symbol) := by
  unfold Microsoft.repeatedScope Plan.repeatedScope
  cases scope : symbol.parent with
  | none => exact .write []
  | some parent =>
      dsimp only
      split
      · exact follows.scope parent (formed.closed _ _ (Graph.mentions_parent stored scope)) base
      · exact .write []

theorem levelName (follows : FollowsPlan parts plan) (formed : graph.WellFormed)
    (spelledOut : Bool) (held : graph.Holds (.symbol id)) :
    Follows base (Microsoft.levelName machine parts spelledOut id)
      (plan.levelName graph machine spelledOut id) := by
  obtain ⟨⟨ident, parent, access, sort⟩, stored⟩ := Graph.holds_symbol_iff.mp held
  have plain : Follows base (orNameRef spelledOut [.ident ident])
      (.level spelledOut (.write [.ident ident])) := by
    have named : Follows base (pure [.ident ident]) (.write [.ident ident]) := .write _
    simpa only [pure_bind] using Follows.level spelledOut named
  simp only [Microsoft.levelName, Plan.levelName, Encoder.symbol_eq_pure stored, stored,
    Script.ofExcept, pure_bind]
  cases sort with
  | specialization template args =>
      have level : Follows base (specializationName machine parts id
          ⟨ident, parent, access, .specialization template args⟩ args)
          (.append (.write [.text "?$", .ident ident, .text "@"])
            (.append (plan.repeatedScope machine ⟨ident, parent, access, .specialization template args⟩)
              (plan.arguments graph id args))) := by
        simp only [specializationName, Follows, Script.run, pure_bind, bind_assoc,
          List.append_assoc]
        exact (follows.repeatedScope formed stored).bind fun later _ _ =>
          (follows.arguments formed held (formed.holds_args stored rfl) later).bind
            fun _ _ _ => .pure _
      cases machine.isLegacy with
      | false => exact .level spelledOut level
      | true =>
          have ended := level.map fun tokens => tokens ++ [.text "@"]
          simpa only [if_true, Follows, Script.run, pure_bind] using ended
  | function info =>
      rcases info with ⟨type, role, needsThis, isVirtual, isConst⟩
      cases role with
      | destructor => exact .write _
      | _ => exact plain
  | _ => exact plain

theorem levelNames (follows : FollowsPlan parts plan) (formed : graph.WellFormed)
    (spelledOut : Bool) (held : graph.Holds (.symbol id)) :
    Follows base (Microsoft.levelNames machine parts spelledOut id)
      (plan.levelNames graph machine spelledOut id) := by
  obtain ⟨names, found, above⟩ := formed.levels_eq_ok held
  simp only [Microsoft.levelNames, Plan.levelNames, found, Encoder.ofExcept, Script.ofExcept,
    pure_bind, Follows, Script.run_concat]
  exact LinkName.Follows.concat fun name listed =>
    follows.levelName formed spelledOut ((above name listed).holds formed held)

theorem qualifiedName (follows : FollowsPlan parts plan) (formed : graph.WellFormed)
    (held : graph.Holds (.symbol id)) :
    Follows base (Microsoft.qualifiedName machine parts id) (plan.qualifiedName graph machine id) :=
  (follows.levelNames formed false held).bind fun _ _ _ => .pure _

/-! ## Types -/

theorem modifier_tree {node : TypeNode} {part : TypeId → TypeTree} (place : Place) :
    Plan.modifier machine (node.tree part) place = modifier machine node place := by
  unfold Plan.modifier modifier
  rw [TypeNode.isConst_tree, TypeNode.isPointer_tree]

theorem array (machine : Target) (follows : FollowsPlan parts plan) (formed : graph.WellFormed)
    {id : TypeId} {tree : TypeTree} (unfolds : base.Unfolds id tree) (place : Place) :
    Follows base (Microsoft.array machine parts id place) (plan.array machine tree place) := by
  obtain ⟨node, part, found, same, -⟩ := unfolds.found
  have letters : Plan.modifier machine tree place = modifier machine node place := by
    rw [same, modifier_tree]
  simp only [Microsoft.array, Plan.array, Follows, Script.run, pure_bind, letters]
  refine .type_bind found (.shape_bind formed unfolds fun later element grown unfolded => ?_)
  exact (follows.type later element _ _ unfolded).bind fun _ _ _ => .pure _

theorem pointee (machine : Target) (follows : FollowsPlan parts plan) (formed : graph.WellFormed)
    {id : TypeId} {tree : TypeTree} (unfolds : base.Unfolds id tree) (place : Place) :
    Follows base (Microsoft.pointee machine parts id place) (plan.pointee machine tree place) := by
  obtain ⟨node, part, found, same, -⟩ := unfolds.found
  unfold Microsoft.pointee Plan.pointee
  rw [same, TypeNode.isStaticArray_tree, ← same]
  refine .type_bind found ?_
  split
  · exact follows.array machine formed unfolds place
  · exact follows.type base id tree place unfolds

theorem parameter (follows : FollowsPlan parts plan) (formed : graph.WellFormed) {param : Param}
    {tree : TypeTree} (unfolds : base.Unfolds param.type tree) :
    Follows base (Microsoft.parameter parts param) (plan.parameter graph (param.passing, tree)) := by
  have passed := LinkName.Follows.passed_bind formed unfolds fun later id _ unfolded =>
    follows.type later id _ {} unfolded
  unfold Plan.parameter
  cases array : (TypeTree.passed (param.passing, tree)).isStaticArray <;>
    rw [array] at passed <;> exact passed

theorem parameters (follows : FollowsPlan parts plan) (formed : graph.WellFormed)
    {signature : Signature} {part : TypeId → TypeTree}
    (unfolds : ∀ param ∈ signature.params, base.Unfolds param.type (part param.type)) :
    Follows base (Microsoft.parameters parts signature) (plan.parameters graph
      (signature.params.map fun param => (param.passing, part param.type)) signature.variadic) := by
  have each : ∀ param ∈ signature.params, Follows base (Microsoft.parameter parts param)
      (plan.parameter graph (param.passing, part param.type)) :=
    fun param listed => follows.parameter formed (unfolds param listed)
  have written := LinkName.Follows.concat each
  have ending : Microsoft.parameterEnd signature = Plan.parameterEnd signature.variadic
      (signature.params.map fun param => (param.passing, part param.type)).isEmpty := by
    unfold Microsoft.parameterEnd Plan.parameterEnd
    cases signature.params <;> rfl
  simp only [Microsoft.parameters, Plan.parameters, List.map_map, Follows, Script.run,
    Script.run_concat, Function.comp_apply, ending]
  exact written.bind fun _ _ _ => .pure _

theorem result (follows : FollowsPlan parts plan) {signature : Signature} {tree : TypeTree}
    (isStructor : Bool) (unfolds : base.Unfolds signature.result tree) :
    Follows base (Microsoft.result parts isStructor signature)
      (plan.result isStructor signature.convention tree) := by
  unfold Microsoft.result Plan.result
  split
  · exact .write _
  · refine .returned_bind unfolds fun later id grown returned => ?_
    obtain ⟨node, part, found, same, -⟩ := returned.found
    have mark : Plan.resultMark (TypeTree.returned signature.convention tree) = resultMark node := by
      rcases node with ⟨form, quals⟩
      rw [same]
      cases form <;> rfl
    refine .type_bind found ?_
    simp only [Script.run, pure_bind, mark]
    exact (follows.type later id _ _ returned).bind fun _ _ _ => .pure _

theorem functionType (follows : FollowsPlan parts plan) (formed : graph.WellFormed) {id : TypeId}
    {tree : TypeTree} (unfolds : base.Unfolds id tree) (needsThis isStructor : Bool) :
    Follows base (Microsoft.functionType machine parts id needsThis isStructor)
      (plan.functionType graph machine tree needsThis isStructor) := by
  obtain ⟨⟨form, quals⟩, part, found, same, inside⟩ := unfolds.found
  unfold Microsoft.functionType Plan.functionType
  rw [same] at unfolds ⊢
  cases form with
  | function signature =>
      refine .signature_bind found rfl ?_
      have linkage : signature.convention.linkage = signature.linkage := rfl
      have variadic : signature.convention.variadic = signature.variadic := rfl
      simp only [TypeNode.tree, linkage, variadic]
      cases convention? machine signature.linkage (needsThis && !signature.variadic) with
      | none => exact .refuseType formed unfolds .noConvention
      | some code =>
          simp only [Script.run, pure_bind, bind_assoc, List.append_assoc]
          exact (follows.result isStructor (inside _ List.mem_cons_self)).bind fun later _ grown =>
            (follows.parameters formed fun param listed =>
              (inside _ (List.mem_cons_of_mem _ (List.mem_map_of_mem listed))).mono grown).bind
                fun _ _ _ => .pure _
  | _ => exact .signature_refused formed unfolds found (by simp)

theorem recorded {id : TypeId} {tree : TypeTree} {place : Place} {write : Encoder graph (List Token)}
    {script : Script} (unfolds : base.Unfolds id tree) (follows : Follows base write script) :
    Follows base (orTypeRef id place write) (.recorded place tree script) :=
  .orTypeRef unfolds follows

/-- A type that is recorded when it is complete. -/
theorem recordedAfter {id : TypeId} {tree : TypeTree} {place : Place}
    {write : Encoder graph (List Token)} {script : Script} (unfolds : base.Unfolds id tree)
    (lead : List Token) (follows : Follows base write script) :
    Follows base (do
        let tokens ← write
        orTypeRef id place (pure (lead ++ tokens)))
      (.recordedAfter place tree lead script) := by
  unfold Script.recordedAfter orTypeRef
  cases place.indirect || place.returned with
  | true =>
      simp only [if_true, Follows, Script.run, pure_bind]
      exact follows.bind fun _ _ _ => .pure _
  | false =>
      refine follows.bind fun later tokens grown =>
        (Follows.findOrInsertType (unfolds.mono grown)).bind fun _ found _ => ?_
      cases found <;> exact .pure _

theorem pointer (machine : Target) (place : Place) (follows : FollowsPlan parts plan)
    (formed : graph.WellFormed) {id target : TypeId} {tree inner : TypeTree} {node : TypeNode}
    {part : TypeId → TypeTree}
    (unfolds : base.Unfolds id tree) (same : tree = node.tree part)
    (inside : base.Unfolds target inner) :
    Follows base (Microsoft.pointer machine parts id target node place)
      (plan.pointer graph machine tree inner place) := by
  obtain ⟨⟨form, quals⟩, part', found, unfolded, -⟩ := inside.found
  have const : tree.isConst = node.isConst := by rw [same, TypeNode.isConst_tree]
  have letters : Plan.modifier machine tree place = modifier machine node place := by
    rw [same, modifier_tree]
  unfold Microsoft.pointer Plan.pointer
  rw [unfolded] at inside ⊢
  refine .type_bind found ?_
  simp only [const, letters]
  cases form with
  | function signature => exact recordedAfter unfolds _ (follows.functionType formed inside false false)
  | staticArray dim element =>
      refine recorded unfolds ?_
      have written := (follows.array machine formed inside place.below).lead
        (modifier machine node place ++
          pointerLetter (node.isConst || !machine.isLegacy) :: width machine)
      simpa only [List.append_assoc, List.cons_append, List.nil_append] using written
  | _ =>
      refine recorded unfolds ?_
      have written := (follows.type base target _ place.below inside).lead
        (modifier machine node place ++ pointerLetter node.isConst :: width machine)
      simpa only [List.append_assoc, List.cons_append, List.nil_append] using written

theorem namedType (machine : Target) (naming : Naming) (place : Place)
    (follows : FollowsPlan parts plan) (formed : graph.WellFormed) {id : TypeId} {tree : TypeTree}
    {symbol : SymbolId} {found : Symbol}
    (unfolds : base.Unfolds id tree) (stored : graph.symbol symbol = .ok found) :
    (∀ lead, Plan.namedLead machine naming found tree place = .ok lead →
      Follows base (orTypeRef id place
          (do return lead ++ (← Microsoft.qualifiedName machine parts symbol)))
        (.recorded place tree (plan.namedType graph machine naming symbol tree place))) ∧
    (∀ reason, Plan.namedLead machine naming found tree place = .error reason →
      Follows base (orTypeRef id place (Encoder.refuseType id reason))
        (.recorded place tree (plan.namedType graph machine naming symbol tree place))) := by
  constructor
  · intro lead known
    refine recorded unfolds ?_
    simp only [Plan.namedType, stored, Script.ofExcept, known]
    exact (follows.qualifiedName formed (Graph.holds_symbol_iff.mpr ⟨found, stored⟩)).lead lead
  · intro reason known
    refine recorded unfolds ?_
    simp only [Plan.namedType, stored, Script.ofExcept, known]
    exact .refuseType formed unfolds reason

theorem enumeration (machine : Target) (place : Place) (follows : FollowsPlan parts plan)
    (formed : graph.WellFormed) {id : TypeId} {tree : TypeTree} {symbol : SymbolId} {found : Symbol}
    {node : TypeNode} (enumBase : BasicType) (unfolds : base.Unfolds id tree)
    (stored : graph.symbol symbol = .ok found)
    (letters : Plan.modifier machine tree place = modifier machine node place) :
    Follows base
      (orTypeRef id place (Microsoft.enumeration machine parts id node symbol enumBase place))
      (.recorded place tree
        (plan.namedType graph machine (.enumeration enumBase) symbol tree place)) := by
  have known := follows.namedType machine (.enumeration enumBase) place formed unfolds stored
  simp only [Plan.namedLead, letters] at known
  unfold Microsoft.enumeration
  cases code : enumBase? enumBase with
  | none => exact known.2 _ (by rw [code])
  | some code => exact known.1 _ (by simp only [code])

theorem basicType (machine : Target) (basic : BasicType) (place : Place) (formed : graph.WellFormed)
    {id : TypeId} {tree : TypeTree} {node : TypeNode} {part : TypeId → TypeTree}
    (unfolds : base.Unfolds id tree) (same : tree = node.tree part) :
    Follows base (Microsoft.basicType machine id node basic place)
      (Plan.basicType graph machine tree basic place) := by
  have const : tree.isConst = node.isConst := by rw [same, TypeNode.isConst_tree]
  have letters : Plan.modifier machine tree place = modifier machine node place := by
    rw [same, modifier_tree]
  unfold Microsoft.basicType Plan.basicType
  simp only [const, letters]
  cases builtin? machine basic with
  | none => exact .refuseType formed unfolds .noBuiltin
  | some code =>
      dsimp only
      split
      · exact recorded unfolds (.write _)
      · exact .write _

theorem writes_type (follows : FollowsPlan parts plan) (formed : graph.WellFormed) {id : TypeId}
    {tree : TypeTree} {place : Place} (unfolds : base.Unfolds id tree) :
    Follows base (Microsoft.type machine parts id place) (plan.type graph machine tree place) := by
  refine .of_sound fun base grown sound => ?_
  have unfolds := unfolds.mono grown
  obtain ⟨⟨form, quals⟩, part, found, same, inside⟩ := unfolds.found
  have foreign : tree.isForeign = (TypeNode.mk form quals).isForeign := by
    rw [same, TypeNode.isForeign_tree]
  refine .type_bind found ?_
  unfold Plan.type
  cases forbidden : (TypeNode.mk form quals).isForeign with
  | true =>
      simp only [Encoder.demand, foreign, forbidden, Bool.not_true, Bool.false_eq_true, if_false,
        if_true]
      exact .refuse_bind (.refuseType formed unfolds .foreignQualifiers)
  | false =>
      simp only [Encoder.demand, foreign, forbidden, Bool.not_false, Bool.false_eq_true, if_false,
        if_true, pure_bind]
      have named : ∀ symbol ∈ form.symbol?, ∃ found, graph.symbol symbol = .ok found :=
        fun symbol mentioned =>
          Graph.holds_symbol_iff.mp (sound.symbol_held formed found mentioned)
      have letters (place : Place) :
          Plan.modifier machine tree place = modifier machine ⟨form, quals⟩ place := by
        rw [same, modifier_tree]
      have const : tree.isConst = (TypeNode.mk form quals).isConst := by
        rw [same, TypeNode.isConst_tree]
      cases form with
      | basic basic =>
          have known := basicType machine basic place formed unfolds same
          subst same
          exact known
      | pointer target =>
          have known := follows.pointer machine place formed unfolds same
            (inside _ List.mem_cons_self)
          subst same
          exact known
      | reference target =>
          have written := (follows.pointee machine formed (inside _ List.mem_cons_self)
            place.below).lead (.text "A" :: width machine)
          subst same
          exact recorded unfolds written
      | staticArray dim element =>
          have written := (follows.pointee machine formed (inside _ List.mem_cons_self)
            place.below).lead [pointerLetter machine.isLegacy]
          subst same
          exact recorded unfolds written
      | vector element =>
          subst same
          exact recorded unfolds (.write _)
      | function signature =>
          subst same
          exact .refuseType formed unfolds .bareFunction
      | record symbol =>
          obtain ⟨outer, stored⟩ := named symbol rfl
          have known := (follows.namedType machine .record place formed unfolds stored).1 _ rfl
          simp only [letters] at known
          subst same
          simp only [Encoder.symbol_eq_pure stored, pure_bind]
          exact known
      | enumeration symbol enumBase =>
          obtain ⟨outer, stored⟩ := named symbol rfl
          have written :=
            follows.enumeration machine place formed enumBase unfolds stored (letters place)
          subst same
          exact written
      | classRef symbol =>
          obtain ⟨outer, stored⟩ := named symbol rfl
          have known := (follows.namedType machine .classRef place formed unfolds stored).1 _ rfl
          simp only [letters, const] at known
          subst same
          exact known
      | dynamicArray _ | assocArray _ _ | delegate _ | typedef _ =>
          subst same
          exact .refuseType formed unfolds .noCounterpart

/-! ## Declarations -/

theorem isMember_eq_pure (formed : graph.WellFormed) {symbol : Symbol}
    (stored : graph.symbol id = .ok symbol) :
    (Microsoft.isMember symbol : Encoder graph Bool) = pure (Plan.isMember graph symbol) := by
  unfold Microsoft.isMember Plan.isMember
  cases scope : symbol.parent with
  | none => rfl
  | some parent =>
      obtain ⟨⟨ident, further, access, sort⟩, known⟩ :=
        formed.symbol_mention (Graph.mentions_parent stored scope)
      simp only [Encoder.symbol_eq_pure known, known, pure_bind]
      cases sort <;> rfl

theorem functionName (follows : FollowsPlan parts plan) (formed : graph.WellFormed)
    {symbol : Symbol} {info : FunctionInfo} (stored : graph.symbol id = .ok symbol)
    (sort : symbol.sort = .function info) :
    Follows base (Microsoft.functionName machine parts id)
      (plan.functionName graph machine id symbol info) := by
  have held : graph.Holds (.symbol id) := Graph.holds_symbol_iff.mpr ⟨symbol, stored⟩
  simp only [Microsoft.functionName, Plan.functionName, Encoder.symbol_eq_pure stored, pure_bind,
    sort, isMember_eq_pure formed stored, Follows, Script.run, bind_assoc, List.append_assoc]
  refine (follows.qualifiedName formed held).bind fun later _ _ => ?_
  exact (follows.functionType formed
    (formed.unfolds_tree (formed.closed _ _ (Graph.mentions_function stored sort)) later) _ _).bind
      fun _ _ _ => .pure _

theorem variableType (follows : FollowsPlan parts plan) (formed : graph.WellFormed) {id : TypeId}
    {tree : TypeTree} {node : TypeNode} {part : TypeId → TypeTree} (unfolds : base.Unfolds id tree)
    (same : tree = node.tree part) :
    Follows base (Microsoft.variableType parts id node) (plan.variableType tree) := by
  unfold Microsoft.variableType Plan.variableType
  rw [same, TypeNode.isPointer_tree, ← same]
  split
  · exact follows.type base id tree {} unfolds
  · exact .mutableOf_bind formed unfolds fun later other _ mutable =>
      follows.type later other _ {} mutable

theorem variableName (follows : FollowsPlan parts plan) (formed : graph.WellFormed)
    {symbol : Symbol} {info : VariableInfo} (stored : graph.symbol id = .ok symbol)
    (sort : symbol.sort = .var info) :
    Follows base (Microsoft.variableName machine parts id)
      (plan.variableName graph machine id symbol info) := by
  have held : graph.Holds (.symbol id) := Graph.holds_symbol_iff.mpr ⟨symbol, stored⟩
  obtain ⟨scope, found⟩ := formed.scopeParent_eq_ok held
  simp only [Microsoft.variableName, Plan.variableName, Encoder.symbol_eq_pure stored, pure_bind,
    sort, Encoder.scopeParent_eq_pure found, found, Script.ofExcept]
  cases info.storage.isLinkable with
  | false =>
      simp only [Encoder.demand, Bool.false_eq_true, if_false,
        Encoder.refuseStorage_eq_throw formed held]
      exact .refuse_bind (.throw _)
  | true =>
      simp only [Encoder.demand, if_true, pure_bind, Follows, Script.run, bind_assoc]
      refine (follows.qualifiedName formed held).bind fun later name _ => ?_
      have unfolds := formed.unfolds_tree
        (formed.closed _ _ (Graph.mentions_variable stored sort)) later
      obtain ⟨node, part, known, same, -⟩ := unfolds.found
      have foreign : (graph.tree info.type).isForeign = node.isForeign := by
        rw [same, TypeNode.isForeign_tree]
      have ending : Plan.variableEnd machine (graph.tree info.type) = variableEnd machine node := by
        rcases node with ⟨form, quals⟩
        rw [same]
        cases form <;> rfl
      refine .type_bind known ?_
      simp only [foreign, ending]
      cases node.isForeign with
      | true =>
          simp only [Bool.not_true, Bool.false_eq_true, if_false, if_true, Script.run]
          exact .refuse_bind (.refuseType formed unfolds .foreignQualifiers)
      | false =>
          simp only [Bool.not_false, Bool.false_eq_true, if_false, if_true, Script.run, pure_bind,
            bind_assoc, List.append_assoc]
          exact (follows.variableType formed unfolds same).bind fun _ _ _ => .pure _

theorem aliasLetter?_eq_pure (formed : graph.WellFormed) {symbol : Symbol} {member : SymbolId}
    (stored : graph.symbol id = .ok symbol) (sort : symbol.sort = .template (some member)) :
    (Microsoft.aliasLetter? machine member : Encoder graph (Option String)) =
      pure (Plan.aliasLetter? graph machine member) := by
  have listed : symbol ∈ graph.symbols :=
    List.mem_of_getElem? (Graph.symbol_eq_ok_iff.mp stored)
  obtain ⟨⟨ident, parent, access, inner⟩, known⟩ :=
    Graph.holds_symbol_iff.mp (formed.members symbol listed member sort)
  unfold Microsoft.aliasLetter? Plan.aliasLetter?
  split
  · rfl
  · simp only [Encoder.symbol_eq_pure known, known, pure_bind]
    cases inner <;> rfl

theorem writes_argument (follows : FollowsPlan parts plan) (formed : graph.WellFormed)
    {owner : SymbolId} {arg : TemplateArg} (heldOwner : graph.Holds (.symbol owner))
    (held : graph.HoldsArg arg) :
    Follows base (Microsoft.argument machine parts owner arg)
      (plan.argument graph machine owner arg) := by
  have refused (reason : ArgumentReason) : Follows base (Encoder.refuseArgument owner arg reason)
      (.refuse (.argument (graph.text owner) (graph.argumentText graph.text arg) reason)) :=
    .refuseArgument formed heldOwner held reason
  cases arg with
  | type id => exact follows.type base id _ {} (formed.unfolds_tree (held _ rfl) base)
  | typeAlias id => exact refused .aliasTarget
  | pack args => exact refused .nestedPack
  | value id number =>
      obtain ⟨node, part, found, same, -⟩ := (formed.unfolds_tree (held _ rfl) base).found
      have integral : (graph.tree id).integral? = node.form.integral? := by
        rw [same, TypeNode.integral?_tree]
      simp only [Microsoft.argument, Plan.argument, integral]
      refine .type_bind found ?_
      cases node.form.integral? with
      | none => exact refused .notIntegral
      | some basic => exact .pure _
  | symbolAlias target =>
      obtain ⟨symbol, stored⟩ := Graph.holds_symbol_iff.mp (held _ rfl)
      simp only [Microsoft.argument, Plan.argument, Encoder.symbol_eq_pure stored, stored,
        Script.ofExcept, pure_bind]
      cases sort : symbol.sort with
      | function info =>
          exact (follows.functionName formed stored sort).lead _
      | var info =>
          exact (follows.variableName formed stored sort).lead _
      | template member =>
          cases member with
          | none => exact refused .aliasTarget
          | some member =>
              simp only [aliasLetter?_eq_pure formed stored sort, pure_bind]
              cases Plan.aliasLetter? graph machine member with
              | none => exact refused .aliasTemplate
              | some letter => exact (follows.qualifiedName formed (held _ rfl)).lead _
      | _ => exact refused .aliasTarget

end FollowsPlan

/-! ## Whole names -/

theorem followsPlan_within (formed : graph.WellFormed) (machine : Target) (depth : Nat) :
    FollowsPlan (encoding machine depth : Encoding graph) (Plan.within graph machine depth) := by
  induction depth with
  | zero => exact ⟨fun _ _ _ => .refuse _, fun _ _ _ _ _ => .refuse _, fun _ _ _ _ _ => .refuse _⟩
  | succ depth ih =>
      exact ⟨fun _ held _ => ih.levelNames formed true held,
        fun _ _ heldOwner held _ => ih.writes_argument formed heldOwner held,
        fun _ _ _ _ unfolds => ih.writes_type formed unfolds⟩

theorem follows_encode (formed : graph.WellFormed) (machine : Target) {id : SymbolId}
    (held : graph.Holds (.symbol id)) (base : Overlay graph) :
    Follows base (encode machine id)
      ((Plan.within graph machine (Encoder.depthBound graph)).declaration graph machine id) := by
  obtain ⟨symbol, stored⟩ := Graph.holds_symbol_iff.mp held
  have follows := followsPlan_within formed machine (Encoder.depthBound graph)
  simp only [encode, Plan.declaration, Encoder.symbol_eq_pure stored, stored, Script.ofExcept,
    pure_bind]
  cases sort : symbol.sort with
  | function info => exact follows.functionName formed stored sort
  | var info => exact follows.variableName formed stored sort
  | _ =>
      simp only [Encoder.refuseSymbol_eq_throw formed stored, sort]
      exact .refuse _

/-- A name is what the script of the declaration writes. -/
theorem outcome_encode (formed : graph.WellFormed) (machine : Target) {id : SymbolId}
    (held : graph.Holds (.symbol id)) (limit : Nat) :
    Encoder.outcome (encode machine id : Encoder graph (List Token)) (Tables.bounded limit) =
      Prod.fst <$> ((Plan.within graph machine (Encoder.depthBound graph)).declaration graph machine
        id).run.run (Record.bounded limit) :=
  (follows_encode formed machine held {}).outcome formed ⟨rfl, rfl, .nil⟩

/-- What is not in the graph has no name. -/
theorem holds_of_encode {machine : Target} {id : SymbolId} {tables : Tables} {tokens : List Token}
    {session : Session graph Tables}
    (ran : (encode machine id : Encoder graph (List Token)).run { tables } = .ok tokens session) :
    graph.Holds (.symbol id) := by
  rw [Graph.holds_symbol_iff]
  cases stored : graph.symbol id with
  | ok symbol => exact ⟨symbol, rfl⟩
  | error fault =>
      have refused : (encode machine id : Encoder graph (List Token)).run { tables } =
          .error (.malformed fault) { tables } := by
        simp only [encode, Encoder.symbol, stored, Encoder.ofExcept]
        rfl
      cases refused.symm.trans ran

/-- The tables that a name leaves behind are those of its script. -/
theorem run_of_encode (formed : graph.WellFormed) {machine : Target} {id : SymbolId} {limit : Nat}
    {tokens : List Token} {session : Session graph Tables}
    (ran : (encode machine id : Encoder graph (List Token)).run { tables := Tables.bounded limit } =
      .ok tokens session) :
    ∃ record,
      ((Plan.within graph machine (Encoder.depthBound graph)).declaration graph machine id).run
        (Record.bounded limit) = .ok (tokens, record) ∧
      (reading graph).relates session.overlay session.tables record := by
  have follows := follows_encode formed machine (holds_of_encode ran) {}
  have agrees := follows { tables := Tables.bounded limit } (Record.bounded limit) le_rfl
    (Overlay.sound_empty formed) ⟨rfl, rfl, .nil⟩
  rw [ran] at agrees
  generalize written : StateT.run (Script.run _) (Record.bounded limit) = course at agrees
  cases agrees with
  | ok _ _ related => exact ⟨_, written, related⟩

end LinkName.Microsoft
