import LinkName.Proofs.Graph.Visibility
import LinkName.Proofs.Itanium.Instances
import LinkName.Proofs.Itanium.Resolution

/-!
Names say what C++ sees. Graphs that look the same to C++ give every item scripts that do the same
until one of them refuses, so that a declaration has the same name in both or in neither of them.
-/
namespace LinkName

/-- The entity, if it is a type, is the same in both graphs. -/
def Graph.Shares (graph graph' : Graph) : Entity → Prop
  | .symbol _ => True
  | .type id => graph.Holds (.type id) ∧ graph'.type id = graph.type id

namespace Itanium

namespace Script

/-- Both scripts do the same, except that they may refuse for different reasons. -/
inductive SeenAlike : Script → Script → Prop
  | write (tokens : List Token) : SeenAlike (.write tokens) (.write tokens)
  | refuse (refusal refusal' : Refusal) : SeenAlike (.refuse refusal) (.refuse refusal')
  | append {first first' second second' : Script} (before : SeenAlike first first')
      (after : SeenAlike second second') : SeenAlike (.append first second) (.append first' second')
  | orRef (key : Key) {body body' : Script} (inside : SeenAlike body body') :
      SeenAlike (.orRef key body) (.orRef key body')
  | storeThen (key : Key) {body body' : Script} (inside : SeenAlike body body') :
      SeenAlike (.storeThen key body) (.storeThen key body')
  | thenStore (key : Key) {body body' : Script} (inside : SeenAlike body body') :
      SeenAlike (.thenStore key body) (.thenStore key body')
  | unlessKnown (key : Key) {body body' : Script} (inside : SeenAlike body body') :
      SeenAlike (.unlessKnown key body) (.unlessKnown key body')

namespace SeenAlike

variable {key : Key} {body body' script script' : Script}

theorem symm (alike : SeenAlike script script') : SeenAlike script' script := by
  induction alike with
  | write tokens => exact .write tokens
  | refuse refusal refusal' => exact .refuse refusal' refusal
  | append _ _ before after => exact .append before after
  | orRef key _ ih => exact .orRef key ih
  | storeThen key _ ih => exact .storeThen key ih
  | thenStore key _ ih => exact .thenStore key ih
  | unlessKnown key _ ih => exact .unlessKnown key ih

theorem named (key : Key) (inside : SeenAlike body body') :
    SeenAlike (.named key body) (.named key body') :=
  .orRef key (.storeThen key inside)

theorem compound (key : Key) (inside : SeenAlike body body') :
    SeenAlike (.compound key body) (.compound key body') :=
  .orRef key (.thenStore key inside)

theorem thenStoreIf (condition : Bool) (key : Key) (inside : SeenAlike body body') :
    SeenAlike (.thenStoreIf condition key body) (.thenStoreIf condition key body') := by
  cases condition with
  | true => exact .thenStore key inside
  | false => exact inside

theorem concat {α : Type} {list : List α} {script script' : α → Script}
    (each : ∀ element ∈ list, SeenAlike (script element) (script' element)) :
    SeenAlike (.concat (list.map script)) (.concat (list.map script')) := by
  induction list with
  | nil => exact .write []
  | cons first rest ih =>
      exact .append (each first List.mem_cons_self)
        (ih fun element listed => each element (List.mem_cons_of_mem _ listed))

/-- What one script writes and stores, so does the other. -/
theorem run_eq_ok (alike : SeenAlike script script') {table last : Table Key} {tokens : List Token}
    (ran : script.run table = .ok (tokens, last)) : script'.run table = .ok (tokens, last) := by
  induction alike generalizing table last tokens with
  | write => exact ran
  | refuse => cases ran
  | append _ _ before after =>
      obtain ⟨_, _, _, begun, ended, rfl⟩ := run_append ran
      exact run_append_of (before begun) (after ended)
  | orRef key _ ih =>
      rw [run_orRef_eq] at ran ⊢
      cases found : table.find? key with
      | some slot => rwa [found] at ran
      | none =>
          rw [found] at ran
          exact ih ran
  | storeThen key _ ih => exact ih ran
  | thenStore key _ ih =>
      obtain ⟨_, inner, rfl⟩ := run_thenStore ran
      rw [run_thenStore_eq, ih inner]
      rfl
  | unlessKnown key _ ih =>
      rw [run_unlessKnown_eq] at ran ⊢
      by_cases known : key ∈ table.entries
      · rwa [if_pos known] at ran ⊢
      · rw [if_neg known] at ran ⊢
        exact ih ran

theorem run_eq_ok_iff (alike : SeenAlike script script') {table last : Table Key}
    {tokens : List Token} :
    script.run table = .ok (tokens, last) ↔ script'.run table = .ok (tokens, last) :=
  ⟨alike.run_eq_ok, alike.symm.run_eq_ok⟩

end SeenAlike

end Script

/-- The item is made of declarations, and of types that both graphs have. -/
def Item.IsSeen (graph graph' : Graph) : Item → Prop
  | .scope id => graph.IsDeclaration id
  | .argument _ arg => ∀ entity ∈ arg.named?, graph.Shares graph' entity
  | .type tree _ => ∀ symbol ∈ tree.symbols, graph.IsDeclaration symbol

namespace Plan

variable {graph graph' : Graph} {plan plan' : Plan} {machine : Target} {id : SymbolId}

/-- The plans have scripts for what is seen that look the same. -/
def SeenAlike (graph graph' : Graph) (plan plan' : Plan) : Prop :=
  ∀ item, Item.IsSeen graph graph' item → (plan item).SeenAlike (plan' item)

variable (parts : SeenAlike graph graph' plan plan')
include parts

theorem arguments_seenAlike {owner : SymbolId} {args : List TemplateArg}
    (each : TemplateArg.Each (graph.Shares graph') args) :
    (plan.arguments graph owner args).SeenAlike (plan'.arguments graph' owner args) := by
  induction args with
  | nil => exact .write []
  | cons first rest ih =>
      cases first with
      | pack inner =>
          cases rest with
          | nil =>
              exact .append (.write _) (.append (.concat fun arg listed =>
                parts (.argument owner arg) (each.of_pack.of_mem listed)) (.write _))
          | cons second rest => exact .refuse _ _
      | _ => exact .append (parts (.argument owner _) each.head) (ih each.tail)

variable (alike : graph.SeenAlike graph') (formed : graph.WellFormed)
include alike formed

theorem sourceName_seenAlike (declared : graph.IsDeclaration id) :
    (plan.sourceName graph id).SeenAlike (plan'.sourceName graph' id) := by
  obtain ⟨⟨ident, parent, access, sort⟩, stored, other⟩ := declared
  obtain ⟨⟨ident', parent', access', sort'⟩, stored', idents, -, sorts⟩ :=
    Graph.symbol_of_forall₂ alike.symbols stored
  obtain rfl : ident = ident' := idents other
  simp only [sourceName, stored, stored', Script.ofExcept]
  cases sorts with
  | template member member' => exact .write _
  | function info needsThis isVirtual => exact .write _
  | same sort =>
      cases sort with
      | specialization template args =>
          have each : TemplateArg.Each (graph.Shares graph') args := by
            intro leaf listed entity named
            have mentioned := Graph.mentions_args stored rfl leaf listed entity named
            cases entity with
            | symbol symbol => trivial
            | type type =>
                refine ⟨formed.closed _ _ mentioned, alike.type_eq formed mentioned ?_⟩
                rintro symbol ⟨⟩ ⟨found, info, known, function⟩
                cases stored.symm.trans known
                cases function
          exact .append (.named (.symbol template) (.write _)) (.append (.write _)
            (.append (arguments_seenAlike parts each) (.write _)))
      | _ => exact .write _

theorem levelName_seenAlike {level : Level} (declared : graph.IsDeclaration level.name)
    (outside : ∀ scope, level.scope = some scope → graph.IsDeclaration scope) :
    (plan.levelName graph level).SeenAlike (plan'.levelName graph' level) := by
  have source := sourceName_seenAlike parts alike formed declared
  rcases level with ⟨name, scope, template⟩
  cases scope with
  | none => exact source
  | some outer =>
      have outer : (plan (.scope outer)).SeenAlike (plan' (.scope outer)) :=
        parts (.scope outer) (outside outer rfl)
      cases template with
      | none => exact .append outer source
      | some template => exact .append (.unlessKnown (.symbol template) outer) source

theorem scopeName_seenAlike (declared : graph.IsDeclaration id) :
    (plan.scopeName graph id).SeenAlike (plan'.scopeName graph' id) := by
  unfold scopeName
  rw [alike.sameOutline.level_eq]
  refine .named (.symbol id) ?_
  cases found : graph'.level id with
  | error fault => exact .refuse _ _
  | ok level =>
      rw [← alike.sameOutline.level_eq] at found
      exact levelName_seenAlike parts alike formed (declared.level_name formed found)
        fun scope => Graph.isDeclaration_level_scope found

theorem mention_seenAlike (declared : graph.IsDeclaration id) :
    (plan.mention graph id).SeenAlike (plan'.mention graph' id) := by
  unfold mention qualifiedName
  rw [alike.sameOutline.level_eq]
  refine .compound (.symbol id) ?_
  cases found : graph'.level id with
  | error fault => exact .refuse _ _
  | ok level =>
      rw [← alike.sameOutline.level_eq] at found
      have name := levelName_seenAlike parts alike formed (declared.level_name formed found)
        fun scope => Graph.isDeclaration_level_scope found
      simp only [Script.ofExcept]
      split
      · exact .append (.write _) (.append name (.write _))
      · exact name

/-! ## Types -/

omit alike formed in
theorem parameters_seenAlike (params : List (Passing × TypeTree)) (isVariadic : Bool)
    (declared : ∀ param ∈ params, ∀ symbol ∈ param.2.symbols, graph.IsDeclaration symbol) :
    (plan.parameters graph params isVariadic).SeenAlike
      (plan'.parameters graph' params isVariadic) := by
  refine .append (.concat fun param listed => ?_) (.write _)
  unfold parameter
  split
  · exact .refuse _ _
  · refine parts (.type (TypeTree.passed param).withoutConst .outermost) ?_
    intro symbol named
    rw [TypeTree.symbols_withoutConst, TypeTree.symbols_passed] at named
    exact declared param listed symbol named

theorem type_seenAlike {tree : TypeTree} (place : Place)
    (declared : ∀ symbol ∈ tree.symbols, graph.IsDeclaration symbol) :
    (plan.type graph machine tree place).SeenAlike (plan'.type graph' machine tree place) := by
  unfold type
  split
  · exact .refuse _ _
  · cases tree with
    | basic basic quals =>
        simp only [basicType]
        split
        · exact .named _ (.write _)
        · exact .write _
    | layer around inner quals =>
        dsimp only
        split
        · exact .compound _ (.append (.write _) (parts (.type inner .nested) declared))
        · exact .refuse _ _
    | named naming symbol quals =>
        have name := mention_seenAlike parts alike formed (declared symbol List.mem_cons_self)
        cases naming with
        | record | enumeration =>
            exact .orRef _ (.thenStoreIf _ _ (.append (.write _) name))
        | classRef => exact .compound _ (.thenStoreIf _ _ (.append (.write _) name))
        | typedef => exact .refuse _ _
    | assocArray key value quals => exact .refuse _ _
    | function result params convention quals =>
        have returned : (plan (.type (TypeTree.returned convention result) .nested)).SeenAlike
            (plan' (.type (TypeTree.returned convention result) .nested)) := by
          refine parts (.type _ .nested) fun symbol named => ?_
          rw [TypeTree.symbols_returned] at named
          exact declared symbol (TypeTree.mem_symbols_function.mpr (.inl named))
        have listed := parameters_seenAlike parts params convention.variadic
          fun param listed symbol named =>
            declared symbol (TypeTree.mem_symbols_function.mpr (.inr ⟨param, listed, named⟩))
        exact .compound _ (.append (.write _) (.append returned (.append listed (.write _))))

/-! ## Declarations -/

theorem variableName_seenAlike (asArgument : Bool) (declared : graph.IsDeclaration id)
    {symbol symbol' : Symbol} (ident : symbol.ident = symbol'.ident) (info : VariableInfo) :
    (plan.variableName graph machine asArgument id symbol info).SeenAlike
      (plan'.variableName graph' machine asArgument id symbol' info) := by
  have source := sourceName_seenAlike parts alike formed declared
  unfold variableName
  rw [alike.sameOutline.scopeParent_eq, ident]
  split
  · cases found : graph'.scopeParent id with
    | error fault => exact .refuse _ _
    | ok scope =>
        cases scope with
        | some outer =>
            rw [← alike.sameOutline.scopeParent_eq] at found
            exact .append (.write _) (.append
              (parts (.scope outer) (Graph.isDeclaration_scope found)) (.append source (.write _)))
        | none =>
            cases asArgument with
            | true => exact .append (.write _) source
            | false => exact .write _
  · exact .refuse _ _

theorem functionPath_seenAlike (declared : graph.IsDeclaration id) {info info' : FunctionInfo}
    (role : info.role = info'.role) (const : info.isConst = info'.isConst) :
    (plan.functionPath graph info id).SeenAlike (plan'.functionPath graph' info' id) := by
  have source := sourceName_seenAlike parts alike formed declared
  have own : (plan.ownName graph info id).SeenAlike (plan'.ownName graph' info' id) := by
    unfold ownName
    rw [role]
    split
    · exact .write _
    · exact source
  unfold functionPath
  rw [alike.sameOutline.scopeParent_eq, const]
  cases found : graph'.scopeParent id with
  | error fault => exact .refuse _ _
  | ok scope =>
      cases scope with
      | some outer =>
          rw [← alike.sameOutline.scopeParent_eq] at found
          exact .append (.write _) (.append
            (parts (.scope outer) (Graph.isDeclaration_scope found)) (.append own (.write _)))
      | none => exact source

variable (formed' : graph'.WellFormed) (untyped : graph.ModulesUntyped)
include formed' untyped

/-- A function is seen without its result. -/
theorem functionName_seenAlike (declared : graph.IsDeclaration id) {info info' : FunctionInfo}
    (held : graph.Holds (.type info.type)) (type : info.type = info'.type)
    (role : info.role = info'.role) (const : info.isConst = info'.isConst) :
    (plan.functionName graph machine id info).SeenAlike
      (plan'.functionName graph' machine id info') := by
  have path := functionPath_seenAlike parts alike formed declared role const
  have source := sourceName_seenAlike parts alike formed declared
  have named := untyped.tree formed held
  unfold functionName
  rw [← type]
  rcases alike.tree_cases formed formed' held with
    ⟨result, result', params, convention, refResult, quals, tree, tree'⟩ | ⟨same, other⟩
  · simp only [tree, tree']
    refine .append (.write _) ?_
    split
    · refine .append path (parameters_seenAlike parts params convention.variadic ?_)
      intro param listed symbol inside
      rw [tree] at named
      exact named symbol (TypeTree.mem_symbols_function.mpr (.inr ⟨param, listed, inside⟩))
    · exact source
  · rw [same]
    cases tree : graph.tree info.type with
    | function result params convention quals => exact absurd tree (other _ _ _ _)
    | _ => exact .refuse _ _

theorem functionArgument_seenAlike (declared : graph.IsDeclaration id) {info info' : FunctionInfo}
    (held : graph.Holds (.type info.type)) (type : info.type = info'.type)
    (role : info.role = info'.role) (const : info.isConst = info'.isConst) :
    (plan.functionArgument graph machine id info).SeenAlike
      (plan'.functionArgument graph' machine id info') := by
  have name : (plan.functionName graph machine id info).SeenAlike _ :=
    functionName_seenAlike parts alike formed formed' untyped declared held type role const
  unfold functionArgument
  rw [← type, alike.sameOutline.scopeParent_eq]
  rcases alike.tree_cases formed formed' held with
    ⟨result, result', params, convention, refResult, quals, tree, tree'⟩ | ⟨same, other⟩
  · simp only [tree, tree']
    cases graph'.scopeParent id with
    | error fault => exact .refuse _ _
    | ok scope => exact .append (.write _) (.append name (.write _))
  · rw [same]
    cases tree : graph.tree info.type with
    | function result params convention quals => exact absurd tree (other _ _ _ _)
    | _ => exact .refuse _ _

theorem argument_seenAlike {owner : SymbolId} {arg : TemplateArg}
    (shared : ∀ entity ∈ arg.named?, graph.Shares graph' entity) :
    (plan.argument graph machine owner arg).SeenAlike (plan'.argument graph' machine owner arg) := by
  cases arg with
  | type type =>
      obtain ⟨held, same⟩ := shared (.type type) rfl
      simp only [argument, alike.tree_eq formed formed' held same]
      exact parts (.type _ .nested) (untyped.tree formed held)
  | value type number =>
      obtain ⟨held, same⟩ := shared (.type type) rfl
      simp only [argument, alike.tree_eq formed formed' held same]
      split
      · exact .append (.write _) (.append
          (parts (.type _ .nested) (untyped.tree formed held)) (.write _))
      · exact .refuse _ _
  | typeAlias | pack => exact .refuse _ _
  | symbolAlias target =>
      simp only [argument]
      cases stored : graph.symbol target with
      | error fault =>
          rw [alike.sameOutline.symbol_error stored]
          exact .refuse _ _
      | ok symbol =>
          obtain ⟨symbol', stored', idents, -, sorts⟩ :=
            Graph.symbol_of_forall₂ alike.symbols stored
          rcases symbol with ⟨ident, parent, access, sort⟩
          rcases symbol' with ⟨ident', parent', access', sort'⟩
          simp only [stored', Script.ofExcept]
          cases sort with
          | function info =>
              obtain ⟨needsThis, isVirtual, rfl⟩ := sorts.of_function
              exact functionArgument_seenAlike parts alike formed formed' untyped ⟨_, stored, rfl⟩
                (formed.closed _ _ (Graph.mentions_function stored rfl)) rfl rfl rfl
          | var info =>
              cases sorts
              exact .append (.write _) (.append (variableName_seenAlike parts alike formed true
                ⟨_, stored, rfl⟩ (idents rfl) info) (.write _))
          | template member =>
              have name := mention_seenAlike parts alike formed ⟨_, stored, rfl⟩
              cases sorts with
              | template => exact name
              | same =>
                  cases member with
                  | none => exact .refuse _ _
                  | some member => exact name
          | _ =>
              cases sorts
              exact .refuse _ _

theorem item_seenAlike (machine : Target) : SeenAlike graph graph' (plan.item graph machine)
    (plan'.item graph' machine) := by
  intro item seen
  cases item with
  | scope id => exact scopeName_seenAlike parts alike formed seen
  | argument owner arg => exact argument_seenAlike parts alike formed formed' untyped seen
  | type tree place => exact type_seenAlike parts alike formed place seen

theorem declaration_seenAlike (machine : Target) (id : SymbolId) :
    (plan.declaration graph machine id).SeenAlike (plan'.declaration graph' machine id) := by
  unfold declaration
  cases stored : graph.symbol id with
  | error fault =>
      rw [alike.sameOutline.symbol_error stored]
      exact .refuse _ _
  | ok symbol =>
      obtain ⟨symbol', stored', idents, -, sorts⟩ := Graph.symbol_of_forall₂ alike.symbols stored
      rcases symbol with ⟨ident, parent, access, sort⟩
      rcases symbol' with ⟨ident', parent', access', sort'⟩
      simp only [stored', Script.ofExcept]
      cases sort with
      | function info =>
          obtain ⟨needsThis, isVirtual, rfl⟩ := sorts.of_function
          exact functionName_seenAlike parts alike formed formed' untyped ⟨_, stored, rfl⟩
            (formed.closed _ _ (Graph.mentions_function stored rfl)) rfl rfl rfl
      | var info =>
          cases sorts
          exact variableName_seenAlike parts alike formed false ⟨_, stored, rfl⟩ (idents rfl) info
      | _ => cases sorts <;> exact .refuse _ _

end Plan

/-! ## Whole names -/

section

variable {graph graph' : Graph} {id : SymbolId} {text : String}

theorem Plan.within_seenAlike (alike : graph.SeenAlike graph') (formed : graph.WellFormed)
    (formed' : graph'.WellFormed) (untyped : graph.ModulesUntyped) (machine : Target) (depth : Nat) :
    Plan.SeenAlike graph graph' (within graph machine depth) (within graph' machine depth) := by
  induction depth with
  | zero => exact fun _ _ => .refuse _ _
  | succ depth ih => exact item_seenAlike ih alike formed formed' untyped machine

theorem nameScript_seenAlike (alike : graph.SeenAlike graph') (formed : graph.WellFormed)
    (formed' : graph'.WellFormed) (untyped : graph.ModulesUntyped) (target : Target)
    (id : SymbolId) : (nameScript graph target id).SeenAlike (nameScript graph' target id) := by
  have depths : Encoder.depthBound graph = Encoder.depthBound graph' := by
    rw [Encoder.depthBound, Encoder.depthBound, alike.sameOutline.length_eq, alike.types]
  unfold nameScript
  rw [depths]
  exact Plan.declaration_seenAlike
    (Plan.within_seenAlike alike formed formed' untyped target _) alike formed formed'
    untyped _ id

/-- Only what the graph holds has a name, and the name is what the script of it writes. -/
theorem nameFor_eq_ok_iff (formed : graph.WellFormed) {target : Target} :
    nameFor graph target id = .ok text ↔ graph.Holds (.symbol id) ∧ ∃ tokens last,
      (nameScript graph target id).run Table.unbounded = .ok (tokens, last) ∧
      text = String.ofList (Token.write tokens) := by
  constructor
  · intro named
    obtain ⟨tokens, session, last, encoded, ran, -, same⟩ := session_of_nameFor formed named
    exact ⟨holds_of_encode encoded, tokens, last, ran, same⟩
  · rintro ⟨held, tokens, last, ran, rfl⟩
    rw [nameFor_eq_run formed held, ran]
    rfl

/-- A declaration has a name in a graph if and only if it has the same name in every graph that
looks the same to C++. -/
theorem nameFor_seenAlike (built : graph.Built) (built' : graph'.Built)
    (alike : graph.SeenAlike graph') (untyped : graph.ModulesUntyped) (target : Target)
    (id : SymbolId) (text : String) :
    nameFor graph target id = .ok text ↔ nameFor graph' target id = .ok text := by
  have scripts := nameScript_seenAlike alike built.wellFormed built'.wellFormed untyped target id
  rw [nameFor_eq_ok_iff built.wellFormed, nameFor_eq_ok_iff built'.wellFormed,
    alike.sameOutline.holds_iff]
  simp only [scripts.run_eq_ok_iff]

end

/-- `void run(Use<S::get, Box>)`, for a virtual `void S::get(int)` that is private. -/
def stock : Graph where
  symbols :=
    [{ ident := "app", sort := .moduleScope },
      { ident := "S", parent := some ⟨0⟩, sort := .record .struct },
      { ident := "Box", parent := some ⟨0⟩, sort := .template (some ⟨3⟩) },
      { ident := "Box", parent := some ⟨2⟩, sort := .record .struct },
      { ident := "get", parent := some ⟨1⟩, access := .priv
        sort := .function { type := ⟨2⟩, needsThis := true, isVirtual := true } },
      { ident := "Use", parent := some ⟨0⟩, sort := .template none },
      { ident := "Use", parent := some ⟨0⟩
        sort := .specialization ⟨5⟩ [.symbolAlias ⟨4⟩, .symbolAlias ⟨2⟩] },
      { ident := "run", parent := some ⟨0⟩, sort := .function { type := ⟨4⟩ } }]
  types :=
    [{ form := .basic .int32 }, { form := .basic .void },
      { form := .function { result := ⟨1⟩, params := [{ type := ⟨0⟩ }] } },
      { form := .record ⟨6⟩ },
      { form := .function { result := ⟨1⟩, params := [{ type := ⟨3⟩ }] } }]

/-- `int run(Use<S::get, Box>)`, for a public `ref int S::get(int)` that is not virtual. -/
def stockSeen : Graph where
  symbols :=
    [{ ident := "shop", sort := .moduleScope },
      { ident := "S", parent := some ⟨0⟩, sort := .record .struct },
      { ident := "Box", parent := some ⟨0⟩, sort := .template (some ⟨1⟩) },
      { ident := "Box", parent := some ⟨2⟩, sort := .record .struct },
      { ident := "get", parent := some ⟨1⟩, sort := .function { type := ⟨2⟩ } },
      { ident := "Use", parent := some ⟨0⟩, sort := .template none },
      { ident := "Use", parent := some ⟨0⟩
        sort := .specialization ⟨5⟩ [.symbolAlias ⟨4⟩, .symbolAlias ⟨2⟩] },
      { ident := "run", parent := some ⟨0⟩, sort := .function { type := ⟨4⟩ } }]
  types :=
    [{ form := .basic .int32 }, { form := .basic .void },
      { form := .function { result := ⟨0⟩, params := [{ type := ⟨0⟩ }], refResult := true } },
      { form := .record ⟨6⟩ },
      { form := .function { result := ⟨0⟩, params := [{ type := ⟨3⟩ }] } }]

theorem stock_built : stock.Built :=
  Graph.built_of_takeAll?
    [.symbol { ident := "app", sort := .moduleScope },
      .symbol { ident := "S", parent := some ⟨0⟩, sort := .record .struct },
      .symbol { ident := "Box", parent := some ⟨0⟩, sort := .template none },
      .symbol { ident := "Box", parent := some ⟨2⟩, sort := .record .struct }, .member ⟨2⟩ ⟨3⟩,
      .type { form := .basic .int32 }, .type { form := .basic .void },
      .type { form := .function { result := ⟨1⟩, params := [{ type := ⟨0⟩ }] } },
      .symbol
        { ident := "get", parent := some ⟨1⟩, access := .priv
          sort := .function { type := ⟨2⟩, needsThis := true, isVirtual := true } },
      .symbol { ident := "Use", parent := some ⟨0⟩, sort := .template none },
      .specialization ⟨5⟩ [.symbolAlias ⟨4⟩, .symbolAlias ⟨2⟩], .type { form := .record ⟨6⟩ },
      .type { form := .function { result := ⟨1⟩, params := [{ type := ⟨3⟩ }] } },
      .symbol { ident := "run", parent := some ⟨0⟩, sort := .function { type := ⟨4⟩ } }] rfl

theorem stockSeen_built : stockSeen.Built :=
  Graph.built_of_takeAll?
    [.symbol { ident := "shop", sort := .moduleScope },
      .symbol { ident := "S", parent := some ⟨0⟩, sort := .record .struct },
      .symbol { ident := "Box", parent := some ⟨0⟩, sort := .template (some ⟨1⟩) },
      .symbol { ident := "Box", parent := some ⟨2⟩, sort := .record .struct },
      .type { form := .basic .int32 }, .type { form := .basic .void },
      .type { form := .function { result := ⟨0⟩, params := [{ type := ⟨0⟩ }], refResult := true } },
      .symbol { ident := "get", parent := some ⟨1⟩, sort := .function { type := ⟨2⟩ } },
      .symbol { ident := "Use", parent := some ⟨0⟩, sort := .template none },
      .specialization ⟨5⟩ [.symbolAlias ⟨4⟩, .symbolAlias ⟨2⟩], .type { form := .record ⟨6⟩ },
      .type { form := .function { result := ⟨0⟩, params := [{ type := ⟨3⟩ }] } },
      .symbol { ident := "run", parent := some ⟨0⟩, sort := .function { type := ⟨4⟩ } }] rfl

theorem stock_isSignature {id : TypeId} (signature : id = ⟨2⟩ ∨ id = ⟨4⟩) :
    stock.IsSignature id := by
  intro entity mentioned
  have held := Graph.holds_of_mentions mentioned
  rcases signature with rfl | rfl
  all_goals
    rcases entity with ⟨_ | _ | _ | _ | _ | _ | _ | _ | index⟩ | ⟨_ | _ | _ | _ | _ | index⟩ <;>
      first
        | exact ⟨_, rfl, _, _, rfl, rfl⟩
        | exact absurd mentioned (by unfold Graph.Mentions; decide)
        | exact absurd held (by simp [Graph.Holds, stock])

theorem stock_seenAlike : stock.SeenAlike stockSeen where
  symbols :=
    .cons ⟨nofun, rfl, .same _⟩ <| .cons ⟨fun _ => rfl, rfl, .same _⟩ <|
      .cons ⟨fun _ => rfl, rfl, .template ⟨3⟩ ⟨1⟩⟩ <| .cons ⟨fun _ => rfl, rfl, .same _⟩ <|
      .cons ⟨fun _ => rfl, rfl, .function _ false false⟩ <| .cons ⟨fun _ => rfl, rfl, .same _⟩ <|
      .cons ⟨fun _ => rfl, rfl, .same _⟩ <| .cons ⟨fun _ => rfl, rfl, .same _⟩ .nil
  types := rfl
  type := by
    rintro ⟨_ | _ | _ | _ | _ | index⟩ node stored <;> cases stored
    · exact .inl rfl
    · exact .inl rfl
    · exact .inr ⟨stock_isSignature (.inl rfl), _, rfl, .function _ _ ⟨0⟩ true⟩
    · exact .inl rfl
    · exact .inr ⟨stock_isSignature (.inr rfl), _, rfl, .function _ _ ⟨0⟩ false⟩

theorem stock_modulesUntyped : stock.ModulesUntyped := by
  rintro ⟨_ | _ | _ | _ | _ | index⟩ node stored symbol named found known <;> cases stored <;>
    cases named
  cases known
  rfl

theorem nameFor_seenAlike_run :
    nameFor stock .itanium64 ⟨7⟩ = .ok "_Z3run3UseIXL_ZN1S3getEiEE3BoxE" ∧
      nameFor stockSeen .itanium64 ⟨7⟩ = .ok "_Z3run3UseIXL_ZN1S3getEiEE3BoxE" := by
  have named : nameFor stock .itanium64 ⟨7⟩ = .ok "_Z3run3UseIXL_ZN1S3getEiEE3BoxE" := by
    decide +kernel
  exact ⟨named, (nameFor_seenAlike stock_built stockSeen_built stock_seenAlike stock_modulesUntyped
    .itanium64 ⟨7⟩ _).mp named⟩

end Itanium

end LinkName
