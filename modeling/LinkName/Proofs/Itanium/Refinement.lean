import LinkName.Proofs.Itanium.Plan

/-!
The encoder follows its plan. Whatever the plan of a name does with trees, the encoder does with
handles, and it comes to the same tokens or to the same refusal.
-/
namespace LinkName.Itanium

variable {graph : Graph}

/-- An encoding that does what a plan says. -/
structure FollowsPlan (parts : Encoding graph) (plan : Plan) : Prop where
  scope : ∀ id, graph.Holds (.symbol id) → ∀ base, Follows base (parts.scope id) (plan (.scope id))
  argument : ∀ owner arg, graph.Holds (.symbol owner) → graph.HoldsArg arg →
    ∀ base, Follows base (parts.argument owner arg) (plan (.argument owner arg))
  type : ∀ base id tree place, base.Unfolds id tree →
    Follows base (parts.type id place) (plan (.type tree place))

namespace FollowsPlan

variable {parts : Encoding graph} {plan : Plan} {base : Overlay graph} {id : SymbolId}
variable {machine : Target}

theorem arguments (follows : FollowsPlan parts plan) (formed : graph.WellFormed)
    {owner : SymbolId} (heldOwner : graph.Holds (.symbol owner)) {args : List TemplateArg}
    (held : TemplateArg.Each graph.Holds args) :
    ∀ base, Follows base (Itanium.arguments parts owner args) (plan.arguments graph owner args) := by
  induction args with
  | nil => exact fun base => .write []
  | cons first rest ih =>
      intro base
      have general : Follows base
          (do return (← parts.argument owner first) ++ (← Itanium.arguments parts owner rest))
          (.append (plan (.argument owner first)) (plan.arguments graph owner rest)) :=
        (follows.argument owner first heldOwner held.head base).bind fun later _ _ =>
          (ih held.tail later).bind fun _ _ _ => .pure _
      cases first with
      | pack inner =>
          cases rest with
          | nil =>
              simp only [Itanium.arguments, Plan.arguments, Follows, Script.run, Script.run_concat,
                pure_bind, bind_assoc, List.append_assoc]
              exact (LinkName.Follows.concat fun arg listed =>
                follows.argument owner arg heldOwner (held.of_pack.of_mem listed) base).bind
                  fun _ _ _ => .pure _
          | cons second rest =>
              exact .refuseArgument formed heldOwner held.head .packNotLast
      | _ => exact general

theorem sourceName (follows : FollowsPlan parts plan) (formed : graph.WellFormed)
    (held : graph.Holds (.symbol id)) :
    Follows base (Itanium.sourceName parts id) (plan.sourceName graph id) := by
  obtain ⟨⟨ident, parent, access, sort⟩, stored⟩ := Graph.holds_symbol_iff.mp held
  simp only [Itanium.sourceName, Plan.sourceName, Encoder.symbol_eq_pure stored, stored,
    Script.ofExcept, pure_bind]
  cases sort with
  | specialization template args =>
      have general : Follows base (orBackRef (.symbol template)
          (Itanium.storeThen (.symbol template) (pure [.source ident])))
          (Plan.generalName template ident) :=
        .orBackRef (.symbol template) (.storeThen (.symbol template) (.write _))
      simp only [Follows, Script.run, pure_bind, bind_assoc, List.append_assoc]
      exact general.bind fun later _ _ =>
        (follows.arguments formed held (formed.holds_args stored rfl) later).bind fun _ _ _ => .pure _
  | _ => exact .write _

theorem enclosing (follows : FollowsPlan parts plan) {level : Level} {outer : SymbolId}
    (held : graph.Holds (.symbol outer)) :
    Follows base (Itanium.enclosing parts level outer) (plan.enclosing level outer) := by
  rcases level with ⟨name, scope, template⟩
  cases template with
  | none => exact follows.scope outer held base
  | some template => exact .unlessKnown (.symbol template) (follows.scope outer held base)

/-- What the two forms of a qualified name have in common. -/
theorem levelName (follows : FollowsPlan parts plan) (formed : graph.WellFormed) {level : Level}
    (held : graph.Holds (.symbol level.name)) {outer : SymbolId} (scope : level.scope = some outer)
    (heldOuter : graph.Holds (.symbol outer)) :
    Follows base (do return (← Itanium.enclosing parts level outer) ++
      (← Itanium.sourceName parts level.name)) (plan.levelName graph level) := by
  simp only [Plan.levelName, scope]
  exact (follows.enclosing heldOuter).bind fun _ _ _ =>
    (follows.sourceName formed held).bind fun _ _ _ => .pure _

theorem scopeName (follows : FollowsPlan parts plan) (formed : graph.WellFormed)
    (held : graph.Holds (.symbol id)) :
    Follows base (Itanium.scopeName parts id) (plan.scopeName graph id) := by
  obtain ⟨level, found⟩ := formed.level_eq_ok held
  have isLevel := Graph.isLevel_of_level found
  refine .orBackRef (.symbol id) (.storeThen (.symbol id) ?_)
  simp only [found, Encoder.ofExcept, Script.ofExcept, pure_bind]
  cases scope : level.scope with
  | none =>
      simp only [Plan.levelName, scope]
      exact follows.sourceName formed (isLevel.holds_name formed held)
  | some outer =>
      exact follows.levelName formed (isLevel.holds_name formed held) scope
        (formed.closed _ _ (isLevel.mentions_scope scope))

theorem qualifiedName (follows : FollowsPlan parts plan) (formed : graph.WellFormed)
    (held : graph.Holds (.symbol id)) :
    Follows base (Itanium.qualifiedName parts id) (plan.qualifiedName graph id) := by
  obtain ⟨level, found⟩ := formed.level_eq_ok held
  have isLevel := Graph.isLevel_of_level found
  simp only [Itanium.qualifiedName, Plan.qualifiedName, found, Encoder.ofExcept, Script.ofExcept,
    pure_bind]
  cases scope : level.scope with
  | none =>
      simp only [Plan.levelName, scope, Option.isSome_none, Bool.false_eq_true, if_false]
      exact follows.sourceName formed (isLevel.holds_name formed held)
  | some outer =>
      simp only [Option.isSome_some, if_true]
      have named : Follows base _ _ :=
        follows.levelName formed (isLevel.holds_name formed held) scope
          (formed.closed _ _ (isLevel.mentions_scope scope))
      have wrapped := named.map fun tokens => [.text "N"] ++ tokens ++ [.text "E"]
      simpa only [Follows, Script.run, pure_bind, bind_assoc, List.append_assoc] using wrapped

theorem mention (follows : FollowsPlan parts plan) (formed : graph.WellFormed)
    (held : graph.Holds (.symbol id)) :
    Follows base (Itanium.mention parts id) (plan.mention graph id) :=
  .orBackRef (.symbol id) (.thenStore (.symbol id) (follows.qualifiedName formed held))

/-! ## Types -/

theorem withoutConst_bind (formed : graph.WellFormed) {id : TypeId} {tree : TypeTree}
    {next : TypeId → Encoder graph (List Token)} {script : Script}
    (unfolds : base.Unfolds id tree)
    (rest : ∀ later other, base ≤ later → later.Unfolds other tree.withoutConst →
      Follows later (next other) script) :
    Follows base (withoutConst id >>= next) script := by
  obtain ⟨node, part, found, same, -⟩ := unfolds.found
  have drops : tree.dropsConst = node.dropsConst := by rw [same, TypeNode.dropsConst_tree]
  rw [withoutConst, bind_assoc]
  refine .type_bind found ?_
  unfold TypeTree.withoutConst at rest
  rw [drops] at rest
  cases dropped : node.dropsConst with
  | false =>
      simp only [dropped, Bool.false_eq_true, if_false] at rest ⊢
      simpa only [pure_bind] using rest base id le_rfl unfolds
  | true =>
      simp only [dropped, if_true] at rest ⊢
      exact .mutableOf_bind formed unfolds rest

theorem parameter (follows : FollowsPlan parts plan) (formed : graph.WellFormed) {param : Param}
    {tree : TypeTree} (unfolds : base.Unfolds param.type tree) :
    Follows base (Itanium.parameter parts param) (plan.parameter graph (param.passing, tree)) := by
  have written : ∀ later id, later.Unfolds id (TypeTree.passed (param.passing, tree)) →
      Follows later (withoutConst id >>= fun id => parts.type id .outermost)
        (plan (.type (TypeTree.passed (param.passing, tree)).withoutConst .outermost)) :=
    fun later id unfolded => withoutConst_bind formed unfolded fun last other _ mutable =>
      follows.type last other _ .outermost mutable
  have passed := LinkName.Follows.passed_bind formed unfolds fun later id _ unfolded =>
    written later id unfolded
  unfold Plan.parameter
  cases array : (TypeTree.passed (param.passing, tree)).isStaticArray <;>
    rw [array] at passed <;> exact passed

theorem parameters (follows : FollowsPlan parts plan) (formed : graph.WellFormed)
    {signature : Signature} {part : TypeId → TypeTree}
    (unfolds : ∀ param ∈ signature.params, base.Unfolds param.type (part param.type)) :
    Follows base (Itanium.parameters parts signature) (plan.parameters graph
      (signature.params.map fun param => (param.passing, part param.type)) signature.variadic) := by
  have each : ∀ param ∈ signature.params, Follows base (Itanium.parameter parts param)
      (plan.parameter graph (param.passing, part param.type)) :=
    fun param listed => follows.parameter formed (unfolds param listed)
  have written := LinkName.Follows.concat each
  have ending : Itanium.parameterEnd signature = Plan.parameterEnd signature.variadic
      (signature.params.map fun param => (param.passing, part param.type)).isEmpty := by
    unfold Itanium.parameterEnd Plan.parameterEnd
    cases signature.params <;> simp
  simp only [Itanium.parameters, Plan.parameters, List.map_map, Follows, Script.run,
    Script.run_concat, Function.comp_apply, ending]
  exact written.bind fun _ _ _ => .pure _

theorem compound {id : TypeId} {tree : TypeTree} {write : Encoder graph (List Token)}
    {script : Script} (unfolds : base.Unfolds id tree) (follows : Follows base write script) :
    Follows base (Itanium.compound id write) (.compound (.type tree) script) :=
  .orBackRef (.type unfolds) (.thenStore (.type unfolds) follows)

/-- What a function type writes, apart from its slot. -/
theorem functionBody (follows : FollowsPlan parts plan) (formed : graph.WellFormed)
    {signature : Signature} {part : TypeId → TypeTree}
    (parts' : ∀ other ∈ (TypeForm.function signature).parts, base.Unfolds other (part other)) :
    Follows base (do
        let external := if signature.linkage = .c then [.text "Y"] else []
        let result ← Encoder.derive (·.returned signature)
        return [.text "F"] ++ external ++ (← parts.type result .nested) ++
          (← Itanium.parameters parts signature) ++ [.text "E"])
      (plan.functionType graph (part signature.result)
        (signature.params.map fun param => (param.passing, part param.type))
        signature.convention) := by
  have mark : signature.convention.linkage = signature.linkage := rfl
  simp only [Follows, Plan.functionType, Script.run, pure_bind, bind_assoc, List.append_assoc, mark]
  refine .returned_bind (parts' _ List.mem_cons_self) fun later result grown returned =>
    (follows.type later result _ .nested returned).bind fun last tokens further => ?_
  refine (follows.parameters formed fun param listed =>
    (parts' _ (List.mem_cons_of_mem _ (List.mem_map_of_mem listed))).mono
      (grown.trans further)).bind fun _ _ _ => ?_
  exact .pure _

theorem functionType (follows : FollowsPlan parts plan) (formed : graph.WellFormed) {id : TypeId}
    {tree : TypeTree} {signature : Signature} {part : TypeId → TypeTree}
    (unfolds : base.Unfolds id tree)
    (parts' : ∀ other ∈ (TypeForm.function signature).parts, base.Unfolds other (part other)) :
    Follows base (Itanium.functionType parts id signature) (.compound (.type tree)
      (plan.functionType graph (part signature.result)
        (signature.params.map fun param => (param.passing, part param.type))
        signature.convention)) :=
  compound unfolds (follows.functionBody formed parts')

theorem thenStoreIf {component : Component} {key : Key} (reads : Reads base component key)
    (condition : Bool) (lead : List Token) {computation : Encoder graph (List Token)}
    {script : Script} (follows : Follows base computation script) :
    Follows base (do
        let tokens ← computation
        storeIf condition component
        return lead ++ tokens)
      (.thenStoreIf condition key (.append (.write lead) script)) := by
  cases condition with
  | false =>
      simp only [storeIf, Script.thenStoreIf, Bool.false_eq_true, if_false, Follows, Script.run,
        pure_bind]
      exact follows.bind fun _ _ _ => .pure _
  | true =>
      simp only [storeIf, Script.thenStoreIf, if_true, Follows, Script.run, pure_bind, bind_assoc]
      exact follows.bind fun _ _ grown => Follows.store_bind (reads.mono grown) (.pure _)

theorem namedType (follows : FollowsPlan parts plan) (formed : graph.WellFormed) {id : TypeId}
    {tree : TypeTree} {node : TypeNode} {symbol : SymbolId} (unfolds : base.Unfolds id tree)
    (held : graph.Holds (.symbol symbol)) :
    Follows base (Itanium.namedType parts id node symbol)
      (.orRef (.type tree) (.thenStoreIf node.isConst (.type tree)
        (.append (.write (constMark node)) (plan.mention graph symbol)))) :=
  .orBackRef (.type unfolds)
    (thenStoreIf (.type unfolds) node.isConst (constMark node) (follows.mention formed held))

theorem classType (follows : FollowsPlan parts plan) (formed : graph.WellFormed) {id : TypeId}
    {tree : TypeTree} {node : TypeNode} {symbol : SymbolId} {place : Place}
    (unfolds : base.Unfolds id tree) (held : graph.Holds (.symbol symbol)) :
    Follows base (Itanium.classType parts id node symbol place)
      (.compound (.type tree) (.thenStoreIf node.isConst .unnamed
        (.append (.write ((if place = .nested then constMark node else []) ++
          [.text "P"] ++ constMark node)) (plan.mention graph symbol)))) :=
  compound unfolds (thenStoreIf .unnamed node.isConst _ (follows.mention formed held))

theorem basicType {id : TypeId} {node : TypeNode} {basic : BasicType}
    (unfolds : base.Unfolds id (.basic basic node.quals)) :
    Follows base (Itanium.basicType machine id node basic)
      (Plan.basicType machine basic node.quals) := by
  unfold Itanium.basicType Plan.basicType
  have same : constMark node = Plan.constMark node.quals.isConst := rfl
  have const : node.isConst = node.quals.isConst := rfl
  simp only [same, const]
  split
  · exact .orBackRef (.type unfolds) (.storeThen (.type unfolds) (.write _))
  · exact .write _

theorem writes_type (follows : FollowsPlan parts plan) (formed : graph.WellFormed) {id : TypeId}
    {tree : TypeTree} {place : Place} (unfolds : base.Unfolds id tree) :
    Follows base (Itanium.type machine parts id place) (plan.type graph machine tree place) := by
  refine .of_sound fun base grown sound => ?_
  have unfolds := unfolds.mono grown
  obtain ⟨⟨form, quals⟩, part, found, same, inside⟩ := unfolds.found
  have foreign : tree.isForeign = (TypeNode.mk form quals).isForeign := by
    rw [same, TypeNode.isForeign_tree]
  refine .type_bind found ?_
  unfold Plan.type
  cases forbidden : (TypeNode.mk form quals).isForeign with
  | true =>
      simp only [Encoder.demand, foreign, forbidden, Bool.not_true, Bool.false_eq_true, if_false,
        if_true]
      exact .refuse_bind (.refuseType formed unfolds .foreignQualifiers)
  | false =>
      simp only [Encoder.demand, foreign, forbidden, Bool.not_false, Bool.false_eq_true, if_false,
        if_true, pure_bind]
      have named : ∀ symbol ∈ form.symbol?, graph.Holds (.symbol symbol) :=
        fun symbol mentioned => sound.symbol_held formed found mentioned
      subst same
      -- A type around another is its lead and that type.
      have layer {element : TypeId} (mentioned : element ∈ form.parts) (lead : List Token) :
          Follows base (do return lead ++ (← parts.type element .nested))
            (.append (.write lead) (plan (.type (part element) .nested))) :=
        (follows.type base element _ .nested (inside element mentioned)).lead lead
      cases form with
      | basic basic => exact basicType unfolds
      | pointer target => exact compound unfolds (layer List.mem_cons_self _)
      | reference target => exact compound unfolds (layer List.mem_cons_self _)
      | staticArray dim element =>
          have written := layer List.mem_cons_self
            (constMark ⟨.staticArray dim element, quals⟩ ++ [.text "A", .number dim, .text "_"])
          exact compound unfolds written
      | vector element => exact compound unfolds (layer List.mem_cons_self _)
      | function signature => exact follows.functionType formed unfolds inside
      | record symbol | enumeration symbol _ =>
          exact follows.namedType formed unfolds (named symbol rfl)
      | classRef symbol => exact follows.classType formed unfolds (named symbol rfl)
      | dynamicArray _ | assocArray _ _ | delegate _ | typedef _ =>
          exact .refuseType formed unfolds .noCounterpart

/-! ## Declarations -/

theorem variableName (follows : FollowsPlan parts plan) (formed : graph.WellFormed)
    {asArgument : Bool} {symbol : Symbol} {info : VariableInfo}
    (stored : graph.symbol id = .ok symbol) (sort : symbol.sort = .var info) :
    Follows base (Itanium.variableName machine parts asArgument id)
      (plan.variableName graph machine asArgument id symbol info) := by
  have held : graph.Holds (.symbol id) := Graph.holds_symbol_iff.mpr ⟨symbol, stored⟩
  obtain ⟨scope, found⟩ := formed.scopeParent_eq_ok held
  simp only [Itanium.variableName, Plan.variableName, Encoder.symbol_eq_pure stored, pure_bind, sort,
    Encoder.scopeParent_eq_pure found, found, Script.ofExcept]
  cases info.storage.isLinkable with
  | false =>
      simp only [Encoder.demand, Bool.false_eq_true, if_false,
        Encoder.refuseStorage_eq_throw formed held]
      exact .refuse_bind (.throw _)
  | true =>
      simp only [Encoder.demand, if_true, pure_bind]
      cases scope with
      | some outer =>
          have heldOuter := formed.closed _ _ (Graph.mentions_scopeParent found)
          simp only [Follows, Script.run, pure_bind, bind_assoc, List.append_assoc]
          exact (follows.scope outer heldOuter base).bind fun _ _ _ =>
            (follows.sourceName formed held).bind fun _ _ _ => .pure _
      | none =>
          cases asArgument with
          | false => exact .write _
          | true =>
              simp only [if_true]
              exact (follows.sourceName formed held).lead _

theorem functionPath (follows : FollowsPlan parts plan) (formed : graph.WellFormed)
    {info : FunctionInfo} (held : graph.Holds (.symbol id)) :
    Follows base (Itanium.functionPath parts info id) (plan.functionPath graph info id) := by
  obtain ⟨scope, found⟩ := formed.scopeParent_eq_ok held
  simp only [Itanium.functionPath, Plan.functionPath, Encoder.scopeParent_eq_pure found, found,
    Script.ofExcept, pure_bind]
  cases scope with
  | none => exact follows.sourceName formed held
  | some outer =>
      have heldOuter := formed.closed _ _ (Graph.mentions_scopeParent found)
      have own (base : Overlay graph) :
          Follows base (Itanium.ownName parts info id) (plan.ownName graph info id) := by
        unfold Itanium.ownName Plan.ownName
        split
        · exact .write _
        · exact follows.sourceName formed held
      simp only [Follows, Script.run, pure_bind, bind_assoc, List.append_assoc]
      exact (follows.scope outer heldOuter base).bind fun later _ _ =>
        (own later).bind fun _ _ _ => .pure _

theorem functionName (follows : FollowsPlan parts plan) (formed : graph.WellFormed)
    {symbol : Symbol} {info : FunctionInfo} (stored : graph.symbol id = .ok symbol)
    (sort : symbol.sort = .function info) :
    Follows base (Itanium.functionName machine parts id) (plan.functionName graph machine id info) := by
  have held : graph.Holds (.symbol id) := Graph.holds_symbol_iff.mpr ⟨symbol, stored⟩
  have unfolds := formed.unfolds_tree (formed.closed _ _ (Graph.mentions_function stored sort)) base
  obtain ⟨⟨form, quals⟩, part, found, same, inside⟩ := unfolds.found
  simp only [Itanium.functionName, Plan.functionName, Encoder.symbol_eq_pure stored, pure_bind, sort]
  rw [same] at unfolds ⊢
  cases form with
  | function signature =>
      refine .signature_bind found rfl ?_
      have linkage : signature.convention.linkage = signature.linkage := rfl
      have variadic : signature.convention.variadic = signature.variadic := rfl
      simp only [TypeNode.tree, linkage, variadic]
      by_cases cpp : signature.linkage = .cpp
      · simp only [cpp, if_true, Script.run, pure_bind, bind_assoc, List.append_assoc]
        exact (follows.functionPath formed held).bind fun _ _ grown =>
          (follows.parameters formed fun param listed =>
            (inside _ (List.mem_cons_of_mem _ (List.mem_map_of_mem listed))).mono grown).bind
              fun _ _ _ => .pure _
      · simp only [cpp, if_false]
        exact (follows.sourceName formed held).lead _
  | _ => exact .signature_refused formed unfolds found (by simp)

theorem functionArgument (follows : FollowsPlan parts plan) (formed : graph.WellFormed)
    {symbol : Symbol} {info : FunctionInfo} (stored : graph.symbol id = .ok symbol)
    (sort : symbol.sort = .function info) :
    Follows base (do
        let signature ← Encoder.signature info.type
        let isExpression := (← Encoder.scopeParent id).isSome && signature.linkage == .cpp
        let name := [.text "L"] ++ (← Itanium.functionName machine parts id) ++ [.text "E"]
        return if isExpression then [.text "X"] ++ name ++ [.text "E"] else name)
      (plan.functionArgument graph machine id info) := by
  have held : graph.Holds (.symbol id) := Graph.holds_symbol_iff.mpr ⟨symbol, stored⟩
  have unfolds := formed.unfolds_tree (formed.closed _ _ (Graph.mentions_function stored sort)) base
  obtain ⟨⟨form, quals⟩, part, found, same, inside⟩ := unfolds.found
  obtain ⟨scope, enclosing⟩ := formed.scopeParent_eq_ok held
  simp only [Plan.functionArgument]
  rw [same] at unfolds ⊢
  cases form with
  | function signature =>
      refine .signature_bind found rfl ?_
      have linkage : signature.convention.linkage = signature.linkage := rfl
      simp only [TypeNode.tree, Encoder.scopeParent_eq_pure enclosing, enclosing, Script.ofExcept,
        pure_bind, bind_assoc, linkage, Script.run]
      refine (follows.functionName formed stored sort).bind fun _ _ _ => ?_
      cases scope.isSome && signature.linkage == .cpp with
      | false => exact .pure _
      | true =>
          simp only [if_true, List.append_assoc, List.cons_append, List.nil_append]
          exact .pure _
  | _ => exact .signature_refused formed unfolds found (by simp)

theorem writes_argument (follows : FollowsPlan parts plan) (formed : graph.WellFormed)
    {owner : SymbolId} {arg : TemplateArg} (heldOwner : graph.Holds (.symbol owner))
    (held : graph.HoldsArg arg) :
    Follows base (Itanium.argument machine parts owner arg) (plan.argument graph machine owner arg) := by
  have refused (reason : ArgumentReason) : Follows base (Encoder.refuseArgument owner arg reason)
      (.refuse (.argument (graph.text owner) (graph.argumentText graph.text arg) reason)) :=
    .refuseArgument formed heldOwner held reason
  cases arg with
  | type id => exact follows.type base id _ .nested (formed.unfolds_tree (held _ rfl) base)
  | typeAlias id => exact refused .aliasTarget
  | pack args => exact refused .nestedPack
  | value id number =>
      have unfolds := formed.unfolds_tree (held _ rfl) base
      obtain ⟨node, part, found, same, -⟩ := unfolds.found
      have integral : (graph.tree id).integral? = node.form.integral? := by
        rw [same, TypeNode.integral?_tree]
      simp only [Itanium.argument, Plan.argument, integral]
      refine .type_bind found ?_
      cases node.form.integral? with
      | none => exact refused .notIntegral
      | some basic =>
          simp only [Script.run, pure_bind, bind_assoc, List.append_assoc]
          exact (follows.type base id _ .nested unfolds).bind fun _ _ _ => .pure _
  | symbolAlias target =>
      obtain ⟨symbol, stored⟩ := Graph.holds_symbol_iff.mp (held _ rfl)
      simp only [Itanium.argument, Plan.argument, Encoder.symbol_eq_pure stored, stored,
        Script.ofExcept, pure_bind]
      cases sort : symbol.sort with
      | function info => exact follows.functionArgument formed stored sort
      | var info =>
          simp only [Follows, Script.run, pure_bind, bind_assoc, List.append_assoc]
          exact (follows.variableName formed stored sort).bind fun _ _ _ => .pure _
      | template member =>
          cases member with
          | none => exact refused .aliasTarget
          | some member => exact follows.mention formed (held _ rfl)
      | _ => exact refused .aliasTarget

end FollowsPlan

/-! ## Whole names -/

theorem followsPlan_within (formed : graph.WellFormed) (machine : Target) (depth : Nat) :
    FollowsPlan (encoding machine depth : Encoding graph) (Plan.within graph machine depth) := by
  induction depth with
  | zero => exact ⟨fun _ _ _ => .refuse _, fun _ _ _ _ _ => .refuse _, fun _ _ _ _ _ => .refuse _⟩
  | succ depth ih =>
      exact ⟨fun _ held _ => ih.scopeName formed held,
        fun _ _ heldOwner held _ => ih.writes_argument formed heldOwner held,
        fun _ _ _ _ unfolds => ih.writes_type formed unfolds⟩

theorem follows_encode (formed : graph.WellFormed) (machine : Target) {id : SymbolId}
    (held : graph.Holds (.symbol id)) (base : Overlay graph) :
    Follows base (encode machine id)
      ((Plan.within graph machine (Encoder.depthBound graph)).declaration graph machine id) := by
  obtain ⟨symbol, stored⟩ := Graph.holds_symbol_iff.mp held
  have follows := followsPlan_within formed machine (Encoder.depthBound graph)
  simp only [encode, Plan.declaration, Encoder.symbol_eq_pure stored, stored, Script.ofExcept,
    pure_bind]
  cases sort : symbol.sort with
  | function info => exact follows.functionName formed stored sort
  | var info => exact follows.variableName formed stored sort
  | _ =>
      simp only [Encoder.refuseSymbol_eq_throw formed stored, sort]
      exact .refuse _

/-- A name is what the script of the declaration writes. -/
theorem outcome_encode (formed : graph.WellFormed) (machine : Target) {id : SymbolId}
    (held : graph.Holds (.symbol id)) (limit : Option Nat) :
    Encoder.outcome (encode machine id : Encoder graph (List Token)) { limit } =
      Prod.fst <$> ((Plan.within graph machine (Encoder.depthBound graph)).declaration graph machine
        id).run.run { limit } :=
  (follows_encode formed machine held {}).outcome formed ⟨rfl, .nil⟩

/-- What is not in the graph has no name. -/
theorem holds_of_encode {machine : Target} {id : SymbolId} {tables : Table Component}
    {tokens : List Token} {session : Session graph (Table Component)}
    (ran : (encode machine id : Encoder graph (List Token)).run { tables } = .ok tokens session) :
    graph.Holds (.symbol id) := by
  rw [Graph.holds_symbol_iff]
  cases stored : graph.symbol id with
  | ok symbol => exact ⟨symbol, rfl⟩
  | error fault =>
      have refused : (encode machine id : Encoder graph (List Token)).run { tables } =
          .error (.malformed fault) { tables } := by
        simp only [encode, Encoder.symbol, stored, Encoder.ofExcept]
        rfl
      cases refused.symm.trans ran

/-- The table that a name leaves behind is that of its script. -/
theorem run_of_encode (formed : graph.WellFormed) {machine : Target} {id : SymbolId}
    {limit : Option Nat} {tokens : List Token} {session : Session graph (Table Component)}
    (ran : (encode machine id : Encoder graph (List Token)).run { tables := { limit } } =
      .ok tokens session) :
    ∃ table,
      ((Plan.within graph machine (Encoder.depthBound graph)).declaration graph machine id).run
        { limit } = .ok (tokens, table) ∧
      (reading graph).relates session.overlay session.tables table := by
  have follows := follows_encode formed machine (holds_of_encode ran) {}
  have agrees := follows { tables := { limit } } { limit } le_rfl (Overlay.sound_empty formed)
    ⟨rfl, .nil⟩
  rw [ran] at agrees
  generalize written : StateT.run (Script.run _) ({ limit } : Table Key) = course at agrees
  cases agrees with
  | ok _ _ related => exact ⟨_, written, related⟩

end LinkName.Itanium
