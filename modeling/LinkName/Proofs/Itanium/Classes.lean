import LinkName.Proofs.Graph.Members
import LinkName.Proofs.Graph.Resolution
import LinkName.Proofs.Itanium.Instances
import LinkName.Proofs.Itanium.Resolution

/-!
Classes are pointers. A graph and the one with a pointer to a record for each of its classes give a
declaration scripts of which the one is resolved to the other.
-/
namespace LinkName.Itanium

open TypeTree (constClass constRecord constPointer pointerTo)

namespace Script.Resolves

variable {classes : SymbolId → Qualifiers → Prop} {key key' : Key} {body body' : Script}

theorem named (keys : key.Resolves classes key') (inside : body.Resolves classes body') :
    (Script.named key body).Resolves classes (Script.named key' body') :=
  .orRef keys (.storeThen keys inside)

theorem compound (keys : key.Resolves classes key') (inside : body.Resolves classes body') :
    (Script.compound key body).Resolves classes (Script.compound key' body') :=
  .orRef keys (.thenStore keys inside)

theorem thenStoreIf {condition : Bool} (keys : key.Resolves classes key')
    (inside : body.Resolves classes body') :
    (Script.thenStoreIf condition key body).Resolves classes
      (Script.thenStoreIf condition key' body') := by
  cases condition with
  | true => exact .thenStore keys inside
  | false => exact inside

theorem concat {α : Type} {list : List α} {script script' : α → Script}
    (each : ∀ element ∈ list, (script element).Resolves classes (script' element)) :
    (Script.concat (list.map script)).Resolves classes (Script.concat (list.map script')) := by
  induction list with
  | nil => exact .write []
  | cons first rest ih =>
      exact .append (each first List.mem_cons_self)
        (ih fun element listed => each element (List.mem_cons_of_mem _ listed))

end Script.Resolves

/-- The item of the resolved graph. -/
def Item.resolved (types : TypeId → TypeId) : Item → Item
  | .scope id => .scope id
  | .argument owner arg => .argument owner (arg.relabel (.ofTypes types))
  | .type tree place => .type (tree.resolvedAt place) place

namespace Plan

variable {graph graph' : Graph} {types : TypeId → TypeId} {plan plan' : Plan} {machine : Target}
variable {id : SymbolId}

/-- The second plan has for each of the items what the script of the first is resolved to. -/
def Resolves (graph : Graph) (types : TypeId → TypeId) (plan plan' : Plan) (items : List Item) :
    Prop :=
  ∀ item ∈ items, (plan item).Resolves graph.HasClass (plan' (item.resolved types))

namespace Resolves

variable {items others : List Item} {item : Item}

theorem left (parts : Resolves graph types plan plan' (items ++ others)) :
    Resolves graph types plan plan' items :=
  fun item listed => parts item (List.mem_append_left _ listed)

theorem right (parts : Resolves graph types plan plan' (items ++ others)) :
    Resolves graph types plan plan' others :=
  fun item listed => parts item (List.mem_append_right _ listed)

theorem head (parts : Resolves graph types plan plan' (item :: items)) :
    (plan item).Resolves graph.HasClass (plan' (item.resolved types)) :=
  parts item List.mem_cons_self

theorem tail (parts : Resolves graph types plan plan' (item :: items)) :
    Resolves graph types plan plan' items :=
  fun item listed => parts item (List.mem_cons_of_mem _ listed)

end Resolves

theorem arguments_resolves {owner : SymbolId} {args : List TemplateArg}
    (parts : Resolves graph types plan plan' (LinkName.Item.ofArguments owner args)) :
    (plan.arguments graph owner args).Resolves graph.HasClass
      (plan'.arguments graph' owner (TemplateArg.relabelAll (.ofTypes types) args)) := by
  induction args with
  | nil => exact .write []
  | cons first rest ih =>
      cases first with
      | pack inner =>
          cases rest with
          | nil =>
              refine .append (.write _) (.append ?_ (.write _))
              rw [TemplateArg.relabelAll_eq_map, List.map_map]
              exact .concat fun arg listed =>
                parts (.argument owner arg) (List.mem_append_left _ (List.mem_map_of_mem listed))
          | cons second rest => exact .refuse _ _
      | _ => exact .append parts.head (ih parts.tail)

variable (resolves : graph.Resolves graph' types)
include resolves

theorem sourceName_resolves (held : graph.Holds (.symbol id))
    (parts : Resolves graph types plan plan' (LinkName.Item.ofName graph id)) :
    (plan.sourceName graph id).Resolves graph.HasClass (plan'.sourceName graph' id) := by
  obtain ⟨⟨ident, parent, access, sort⟩, stored⟩ := Graph.holds_symbol_iff.mp held
  have stored' := resolves.symbols id _ stored
  simp only [Relabeling.ofTypes] at stored'
  simp only [sourceName, stored, stored', Script.ofExcept]
  cases sort with
  | specialization template args =>
      simp only [LinkName.Item.ofName, stored] at parts
      exact .append (.named (.symbol template) (.write _))
        (.append (.write _) (.append (arguments_resolves parts) (.write _)))
  | _ => exact .write _

theorem levelName_resolves {level : Level} (held : graph.Holds (.symbol level.name))
    (parts : Resolves graph types plan plan' (Item.ofLevel graph level)) :
    (plan.levelName graph level).Resolves graph.HasClass (plan'.levelName graph' level) := by
  have source := sourceName_resolves resolves held parts.right
  rcases level with ⟨name, scope, template⟩
  cases scope with
  | none => exact source
  | some outer =>
      have outside := parts.left.head
      cases template with
      | none => exact .append outside source
      | some template => exact .append (.unlessKnown (.symbol template) outside) source

section

variable (formed : graph.WellFormed)
include formed

theorem scopeName_resolves (held : graph.Holds (.symbol id))
    (parts : Resolves graph types plan plan' (Item.ofMention graph id)) :
    (plan.scopeName graph id).Resolves graph.HasClass (plan'.scopeName graph' id) := by
  obtain ⟨level, found⟩ := formed.level_eq_ok held
  simp only [Item.ofMention, found] at parts
  have heldName := (Graph.isLevel_of_level found).holds_name formed held
  simp only [scopeName, found, resolves.level found, Script.ofExcept]
  exact .named (.symbol id) (levelName_resolves resolves heldName parts)

theorem mention_resolves (held : graph.Holds (.symbol id))
    (parts : Resolves graph types plan plan' (Item.ofMention graph id)) :
    (plan.mention graph id).Resolves graph.HasClass (plan'.mention graph' id) := by
  obtain ⟨level, found⟩ := formed.level_eq_ok held
  simp only [Item.ofMention, found] at parts
  have named := levelName_resolves resolves
    ((Graph.isLevel_of_level found).holds_name formed held) parts
  simp only [mention, qualifiedName, found, resolves.level found, Script.ofExcept]
  refine .compound (.symbol id) ?_
  split
  · exact .append (.write _) (.append named (.write _))
  · exact named

end

omit resolves in
theorem parameters_resolves {params : List (Passing × TypeTree)} (isVariadic : Bool)
    (parts : Resolves graph types plan plan' (Item.ofParameters params)) :
    (plan.parameters graph params isVariadic).Resolves graph.HasClass
      (plan'.parameters graph' (params.map fun param => (param.1, param.2.resolved))
        isVariadic) := by
  simp only [parameters, List.map_map, List.isEmpty_map]
  refine .append (.concat fun param listed => ?_) (.write _)
  have inside := parts _ (List.mem_map_of_mem listed)
  simp only [parameter, Function.comp_apply, TypeTree.passed_resolved,
    TypeTree.isStaticArray_resolved, TypeTree.withoutConst_resolved]
  split
  · exact .refuse _ _
  · exact inside

omit resolves in
theorem mention_fresh (order : graph.Order) (formed : graph.WellFormed)
    (parts : ∀ part ∈ Item.ofMention graph id,
      Script.Within order (8 * order.rank (.symbol id)) (plan part)) :
    .type (constClass id) ∉ (plan.mention graph id).keys := by
  have below := qualifiedName_within formed le_rfl parts
  intro listed
  have inside : .type (constClass id) ∈ (plan.qualifiedName graph id).keys := by
    simpa [mention, Script.compound, Script.keys] using listed
  exact absurd (below _ inside).2 (Nat.lt_irrefl _)

/-! ## Types -/

omit resolves in
theorem type_pointerTo {symbol : SymbolId} {target quals : Qualifiers} (place : Place)
    (native : (quals.isShared || quals.isImmutable) = false)
    (inside : plan (.type (.named .record symbol target) .nested) =
      plan.namedType graph .record symbol target .nested) :
    plan.type graph machine (pointerTo symbol target quals) place =
      .compound (.type (pointerTo symbol target quals))
        (.append (.write ((if quals.isConst then [.text "K"] else []) ++ [.text "P"]))
          (plan.namedType graph .record symbol target .nested)) := by
  simp only [pointerTo, type, TypeTree.isForeign, TypeTree.quals, native, Bool.false_eq_true,
    if_false, Layer.itaniumLead?, inside]

omit resolves in
/-- A class is written as the pointer is, with the record inside. -/
theorem classRef_resolves (machine : Target) {symbol : SymbolId} {quals : Qualifiers} (place : Place)
    (native : (quals.isShared || quals.isImmutable) = false) (named : graph.HasClass symbol quals)
    (fresh : .type (constClass symbol) ∉ (plan.mention graph symbol).keys)
    (target : plan' (.type (.named .record symbol quals) .nested) =
      plan'.namedType graph' .record symbol quals .nested)
    (mentioned : (plan.mention graph symbol).Resolves graph.HasClass
      (plan'.mention graph' symbol)) :
    (plan.namedType graph .classRef symbol quals place).Resolves graph.HasClass
      (plan'.type graph' machine ((TypeTree.named .classRef symbol quals).resolvedAt place)
        place) := by
  rcases quals with ⟨isConst, isShared, isImmutable⟩
  obtain ⟨rfl, rfl⟩ : isShared = false ∧ isImmutable = false := by simpa using native
  rw [TypeTree.resolvedAt, type_pointerTo place rfl target]
  cases isConst with
  | false =>
      have keys : (Key.type (.named .classRef symbol {})).Resolves graph.HasClass
          (.type (pointerTo symbol {} {})) :=
        .type ⟨by simp, fun _ => named⟩ (by simp [constClass])
      have inside := Script.Resolves.compound keys
        (.append (.write [.text "P"]) (.target named mentioned))
      cases place <;> exact inside
  | true =>
      have inside := Script.Resolves.constant place named fresh mentioned
      cases place <;> exact inside

theorem type_resolves (formed : graph.WellFormed) {tree : TypeTree} (place : Place)
    (apart : tree.Apart graph.HasClass)
    (held : ∀ symbol ∈ tree.symbols, graph.Holds (.symbol symbol))
    (fresh : ∀ symbol ∈ tree.symbols, .type (constClass symbol) ∉ (plan.mention graph symbol).keys)
    (targets : ∀ symbol ∈ tree.symbols, ∀ quals : Qualifiers,
      (quals.isShared || quals.isImmutable) = false →
      plan' (.type (.named .record symbol quals) .nested) =
        plan'.namedType graph' .record symbol quals .nested)
    (parts : Resolves graph types plan plan' (Item.ofType graph tree)) :
    (plan.type graph machine tree place).Resolves graph.HasClass
      (plan'.type graph' machine (tree.resolvedAt place) place) := by
  unfold type
  rw [TypeTree.isForeign_resolvedAt]
  split
  · exact .refuse _ _
  · next native =>
    cases tree with
    | basic basic quals =>
        have keys : (Key.type (.basic basic quals)).Resolves graph.HasClass
            (.type (.basic basic quals)) :=
          .type apart (by simp [constClass])
        simp only [TypeTree.resolvedAt, TypeTree.resolved_basic, basicType]
        split
        · exact .named keys (.write _)
        · exact .write _
    | layer around inner quals =>
        have keys : (Key.type (.layer around inner quals)).Resolves graph.HasClass
            (.type (.layer around inner.resolved quals)) :=
          .type apart (by simp [constClass])
        have inside := parts.head
        simp only [Item.resolved, TypeTree.resolvedAt_nested] at inside
        simp only [TypeTree.resolvedAt, TypeTree.resolved_layer]
        split
        · exact .compound keys (.append (.write _) inside)
        · exact .refuse _ _
    | named naming symbol quals =>
        have mentioned := mention_resolves resolves formed (held symbol List.mem_cons_self) parts
        have keys (other : naming ≠ .classRef) :
            (Key.type (.named naming symbol quals)).Resolves graph.HasClass
              (.type (.named naming symbol quals)) := by
          have same : (Key.type (.named naming symbol quals)).Resolves graph.HasClass _ :=
            .type apart (by simp [constClass, other])
          rwa [TypeTree.resolved_named other] at same
        cases naming with
        | classRef =>
            have listed : symbol ∈ (TypeTree.named .classRef symbol quals).symbols :=
              List.mem_cons_self
            have plain : (quals.isShared || quals.isImmutable) = false :=
              Bool.eq_false_iff.mpr native
            have same := classRef_resolves machine place plain (apart.2 rfl) (fresh symbol listed)
              (targets symbol listed quals plain) mentioned
            unfold type at same
            rwa [TypeTree.isForeign_resolvedAt, if_neg native] at same
        | typedef => exact .refuse _ _
        | record | enumeration =>
            have keys := keys (by simp)
            exact .orRef keys (.thenStoreIf keys (.append (.write _) mentioned))
    | assocArray key value quals => exact .refuse _ _
    | function result params convention quals =>
        have keys : (Key.type (.function result params convention quals)).Resolves graph.HasClass
            (.type (TypeTree.function result params convention quals).resolved) :=
          .type apart (by simp [constClass])
        have returned := parts.head
        have listed : (plan.parameters graph params convention.variadic).Resolves graph.HasClass
            (plan'.parameters graph' (params.map fun param => (param.1, param.2.resolved))
              convention.variadic) :=
          parameters_resolves convention.variadic parts.tail
        simp only [Item.resolved, TypeTree.resolvedAt_nested] at returned
        simp only [TypeTree.resolvedAt, TypeTree.resolved_function] at keys ⊢
        simp only [functionType, TypeTree.returned_resolved]
        exact .compound keys (.append (.write _) (.append returned (.append listed (.write _))))

/-! ## Declarations -/

section

variable (formed : graph.WellFormed) (formed' : graph'.WellFormed)
include formed

theorem variableName_resolves (asArgument : Bool) {symbol : Symbol} {info : VariableInfo}
    (held : graph.Holds (.symbol id))
    (parts : Resolves graph types plan plan'
      (Item.ofScope graph id ++ LinkName.Item.ofName graph id)) :
    (plan.variableName graph machine asArgument id symbol info).Resolves graph.HasClass
      (plan'.variableName graph' machine asArgument id (symbol.relabel (.ofTypes types))
        (info.relabel (.ofTypes types))) := by
  obtain ⟨scope, found⟩ := formed.scopeParent_eq_ok held
  have source := sourceName_resolves resolves held parts.right
  have outer := parts.left
  simp only [Item.ofScope, found] at outer
  have storage : (info.relabel (.ofTypes types)).storage = info.storage := rfl
  simp only [variableName, found, resolves.scopeParent found, Script.ofExcept, storage]
  split
  · cases scope with
    | none =>
        cases asArgument with
        | true => exact .append (.write _) source
        | false => exact .write _
    | some scope =>
        exact .append (.write _) (.append outer.head (.append source (.write _)))
  · exact .refuse _ _

theorem functionPath_resolves (info : FunctionInfo) (held : graph.Holds (.symbol id))
    (parts : Resolves graph types plan plan'
      (Item.ofScope graph id ++ LinkName.Item.ofName graph id)) :
    (plan.functionPath graph info id).Resolves graph.HasClass
      (plan'.functionPath graph' (info.relabel (.ofTypes types)) id) := by
  obtain ⟨scope, found⟩ := formed.scopeParent_eq_ok held
  have source := sourceName_resolves resolves held parts.right
  have outer := parts.left
  simp only [Item.ofScope, found] at outer
  have own : (plan.ownName graph info id).Resolves graph.HasClass
      (plan'.ownName graph' (info.relabel (.ofTypes types)) id) := by
    have role : (info.relabel (.ofTypes types)).role = info.role := rfl
    simp only [ownName, role]
    split
    · exact .write _
    · exact source
  have const : (info.relabel (.ofTypes types)).isConst = info.isConst := rfl
  simp only [functionPath, found, resolves.scopeParent found, Script.ofExcept, const]
  cases scope with
  | none => exact source
  | some scope => exact .append (.write _) (.append outer.head (.append own (.write _)))

include formed'

theorem functionName_resolves {symbol : Symbol} {info : FunctionInfo}
    (stored : graph.symbol id = .ok symbol) (sort : symbol.sort = .function info)
    (parts : Resolves graph types plan plan' (Item.ofDeclaration graph id)) :
    (plan.functionName graph machine id info).Resolves graph.HasClass
      (plan'.functionName graph' machine id (info.relabel (.ofTypes types))) := by
  have held : graph.Holds (.symbol id) := Graph.holds_symbol_iff.mpr ⟨symbol, stored⟩
  have tree := resolves.tree formed formed' (formed.closed _ _ (Graph.mentions_function stored sort))
  have path := functionPath_resolves resolves formed info held parts.left
  have source := sourceName_resolves resolves held parts.left.right
  have type : (info.relabel (.ofTypes types)).type = types info.type := rfl
  have signature := parts.right
  rcases symbol with ⟨ident, parent, access, kind⟩
  obtain rfl : kind = .function info := sort
  simp only [Item.ofSignature, stored] at signature
  unfold functionName
  rw [type, tree]
  cases same : graph.tree info.type with
  | function result params convention quals =>
      rw [same] at signature
      rw [TypeTree.resolved_function]
      refine .append (.write _) ?_
      split
      · exact .append path (parameters_resolves convention.variadic signature)
      · exact source
  | named naming => cases naming <;> exact .refuse _ _
  | _ => exact .refuse _ _

theorem functionArgument_resolves {symbol : Symbol} {info : FunctionInfo}
    (stored : graph.symbol id = .ok symbol) (sort : symbol.sort = .function info)
    (parts : Resolves graph types plan plan' (Item.ofDeclaration graph id)) :
    (plan.functionArgument graph machine id info).Resolves graph.HasClass
      (plan'.functionArgument graph' machine id (info.relabel (.ofTypes types))) := by
  have held : graph.Holds (.symbol id) := Graph.holds_symbol_iff.mpr ⟨symbol, stored⟩
  have tree := resolves.tree formed formed' (formed.closed _ _ (Graph.mentions_function stored sort))
  have named : (plan.functionName graph machine id info).Resolves graph.HasClass
      (plan'.functionName graph' machine id (info.relabel (.ofTypes types))) :=
    functionName_resolves resolves formed formed' stored sort parts
  have type : (info.relabel (.ofTypes types)).type = types info.type := rfl
  obtain ⟨scope, found⟩ := formed.scopeParent_eq_ok held
  unfold functionArgument
  rw [type, tree]
  cases same : graph.tree info.type with
  | function result params convention quals =>
      simp only [TypeTree.resolved_function, found, resolves.scopeParent found, Script.ofExcept]
      exact .append (.write _) (.append named (.write _))
  | named naming => cases naming <;> exact .refuse _ _
  | _ => exact .refuse _ _

theorem argument_resolves {owner : SymbolId} {arg : TemplateArg} (held : graph.HoldsArg arg)
    (parts : Resolves graph types plan plan' (Item.parts graph (.argument owner arg))) :
    (plan.argument graph machine owner arg).Resolves graph.HasClass
      (plan'.argument graph' machine owner (arg.relabel (.ofTypes types))) := by
  cases arg with
  | type type =>
      have inside := parts.head
      have tree := resolves.tree formed formed' (held (.type type) rfl)
      simp only [Item.resolved, TypeTree.resolvedAt_nested, ← tree] at inside
      exact inside
  | value type number =>
      have inside := parts.head
      have tree := resolves.tree formed formed' (held (.type type) rfl)
      have integral := TypeTree.integral?_resolved (graph.tree type)
      simp only [Item.resolved, TypeTree.resolvedAt_nested, ← tree] at inside integral
      simp only [TemplateArg.relabel, argument, Relabeling.ofTypes, integral]
      split
      · exact .append (.write _) (.append inside (.write _))
      · exact .refuse _ _
  | typeAlias | pack => exact .refuse _ _
  | symbolAlias target =>
      have heldTarget : graph.Holds (.symbol target) := held _ rfl
      obtain ⟨symbol, stored⟩ := Graph.holds_symbol_iff.mp heldTarget
      have stored' : graph'.symbol target = .ok (symbol.relabel (.ofTypes types)) :=
        resolves.symbols target symbol stored
      have sorted : (symbol.relabel (.ofTypes types)).sort = symbol.sort.relabel (.ofTypes types) :=
        rfl
      have same : (TemplateArg.symbolAlias target).relabel (.ofTypes types) = .symbolAlias target :=
        rfl
      rw [same]
      simp only [argument, stored, stored', Script.ofExcept, sorted]
      cases sort : symbol.sort with
      | function info =>
          exact functionArgument_resolves resolves formed formed' stored sort parts.left
      | var info =>
          exact .append (.write _) (.append
            (variableName_resolves resolves formed true heldTarget parts.left.left) (.write _))
      | template member =>
          cases member with
          | none => exact .refuse _ _
          | some member => exact mention_resolves resolves formed heldTarget parts.right
      | _ => exact .refuse _ _

theorem declaration_resolves (held : graph.Holds (.symbol id))
    (parts : Resolves graph types plan plan' (Item.ofDeclaration graph id)) :
    (plan.declaration graph machine id).Resolves graph.HasClass
      (plan'.declaration graph' machine id) := by
  obtain ⟨symbol, stored⟩ := Graph.holds_symbol_iff.mp held
  have stored' : graph'.symbol id = .ok (symbol.relabel (.ofTypes types)) :=
    resolves.symbols id symbol stored
  have sorted : (symbol.relabel (.ofTypes types)).sort = symbol.sort.relabel (.ofTypes types) := rfl
  simp only [declaration, stored, stored', Script.ofExcept, sorted]
  cases sort : symbol.sort with
  | function info => exact functionName_resolves resolves formed formed' stored sort parts
  | var info => exact variableName_resolves resolves formed false held parts.left
  | _ => exact .refuse _ _

end

/-! ## Whole names -/

/-- A type that is an item keeps records and classes apart. -/
def KeepsApart (graph : Graph) : Item → Prop
  | .scope _ | .argument _ _ => True
  | .type tree _ => tree.Apart graph.HasClass

omit resolves

theorem keepsApart_ofName : ∀ part ∈ (LinkName.Item.ofName graph id : List Item),
    KeepsApart graph part := by
  intro part listed
  unfold LinkName.Item.ofName at listed
  split at listed
  · obtain ⟨arg, rfl⟩ := LinkName.Item.eq_argument_of_mem listed
    trivial
  · cases listed

theorem keepsApart_ofMention : ∀ part ∈ Item.ofMention graph id, KeepsApart graph part := by
  intro part listed
  unfold Item.ofMention at listed
  split at listed
  · rcases List.mem_append.mp listed with scope | name
    · obtain ⟨outer, -, rfl⟩ := List.mem_map.mp scope
      trivial
    · exact keepsApart_ofName part name
  · cases listed

theorem keepsApart_ofParameters {params : List (Passing × TypeTree)}
    (each : ∀ param ∈ params, param.2.Apart graph.HasClass) :
    ∀ part ∈ Item.ofParameters params, KeepsApart graph part := by
  intro part listed
  obtain ⟨param, known, rfl⟩ := List.mem_map.mp listed
  exact (TypeTree.apart_withoutConst _).mpr ((TypeTree.apart_passed param).mpr (each param known))

theorem keepsApart_ofType {tree : TypeTree} (apart : tree.Apart graph.HasClass) :
    ∀ part ∈ Item.ofType graph tree, KeepsApart graph part := by
  cases tree with
  | basic | assocArray => simp [Item.ofType]
  | layer around inner quals => exact List.forall_mem_singleton.mpr apart
  | named naming symbol quals => exact keepsApart_ofMention
  | function result params convention quals =>
      obtain ⟨returned, passed⟩ := TypeTree.apart_function.mp apart
      exact List.forall_mem_cons.mpr
        ⟨(TypeTree.apart_returned convention result).mpr returned, keepsApart_ofParameters passed⟩

section

variable (apart : graph.ClassesApart) (formed : graph.WellFormed)
include apart formed

theorem keepsApart_ofDeclaration : ∀ part ∈ Item.ofDeclaration graph id, KeepsApart graph part := by
  intro part listed
  rcases List.mem_append.mp listed with name | signature
  · rcases List.mem_append.mp name with scope | name
    · unfold Item.ofScope at scope
      split at scope
      · obtain ⟨outer, -, rfl⟩ := List.mem_map.mp scope
        trivial
      · cases scope
    · exact keepsApart_ofName part name
  · unfold Item.ofSignature at signature
    split at signature
    · next ident parent access info stored =>
      have held := formed.closed _ _ (Graph.mentions_function stored rfl)
      split at signature
      · next result params convention quals same =>
        have tree := apart.tree formed held
        rw [same] at tree
        exact keepsApart_ofParameters (TypeTree.apart_function.mp tree).2 part signature
      · cases signature
    · cases signature

theorem keepsApart_parts {item : Item} (held : item.Held graph) (keeps : KeepsApart graph item) :
    ∀ part ∈ Item.parts graph item, KeepsApart graph part := by
  cases item with
  | scope id => exact keepsApart_ofMention
  | argument owner arg =>
      cases arg with
      | type type | value type number =>
          exact List.forall_mem_singleton.mpr (apart.tree formed (held.2 (.type type) rfl))
      | typeAlias | pack => simp [Item.parts]
      | symbolAlias target =>
          intro part listed
          rcases List.mem_append.mp listed with declared | mentioned
          · exact keepsApart_ofDeclaration apart formed part declared
          · exact keepsApart_ofMention part mentioned
  | type tree place => exact keepsApart_ofType keeps

end

section

include resolves in
theorem held_resolved {item : Item} (held : item.Held graph) :
    (Item.resolved types item).Held graph' := by
  cases item with
  | scope id => exact resolves.holds_symbol held
  | argument owner arg => exact ⟨resolves.holds_symbol held.1, resolves.holdsArg held.2⟩
  | type tree place =>
      intro symbol listed
      rw [TypeTree.symbols_resolvedAt] at listed
      exact resolves.holds_symbol (held symbol listed)

variable (apart : graph.ClassesApart) (formed : graph.WellFormed) (formed' : graph'.WellFormed)
variable (order : graph.Order) (order' : graph'.Order)
include resolves apart formed formed' order order'

theorem settled_resolves {item : Item} (held : item.Held graph) (keeps : KeepsApart graph item) :
    (settled order machine item).Resolves graph.HasClass
      (settled order' machine (item.resolved types)) := by
  revert keeps
  refine LinkName.Item.induction (Item.descends formed) order (motive := fun item =>
    KeepsApart graph item → (settled order machine item).Resolves graph.HasClass
      (settled order' machine (Item.resolved types item))) ?_ held
  intro item held ih keeps
  have parts : Resolves graph types (settled order machine) (settled order' machine)
      (Item.parts graph item) :=
    fun part listed => ih part listed (keepsApart_parts apart formed held keeps part listed)
  rw [settled_eq formed order held, settled_eq formed' order' (held_resolved resolves held)]
  cases item with
  | scope id => exact scopeName_resolves resolves formed held parts
  | argument owner arg => exact argument_resolves resolves formed formed' held.2 parts
  | type tree place =>
      refine type_resolves resolves formed place keeps held ?_ ?_ parts
      · intro symbol listed
        refine mention_fresh order formed fun part inside => ?_
        obtain ⟨heldPart, less⟩ := Item.below_ofMention formed order symbol part inside
        exact (settled_within formed order heldPart).mono less
      · intro symbol listed quals native
        have there : (Item.type (.named .record symbol quals) .nested : Item).Held graph' :=
          List.forall_mem_singleton.mpr (resolves.holds_symbol (held symbol listed))
        rw [settled_eq formed' order' there]
        simp only [Plan.item, type, TypeTree.isForeign, TypeTree.quals, native, Bool.false_eq_true,
          if_false]

end

end Plan

/-- A const class has a slot both as a const pointer to its record and as a mutable one. -/
def ResolvedTwice {graph : Graph} (classes : SymbolId → Qualifiers → Prop)
    (session : Session graph (Table Component)) : Prop :=
  ∃ symbol, classes symbol { isConst := true } ∧ ∀ place, ∃ id,
    .type id ∈ session.tables.entries ∧ session.overlay.Unfolds id (constPointer place symbol)

section

variable {graph graph' : Graph} {types : TypeId → TypeId}

theorem resolvedTwice_iff {classes : SymbolId → Qualifiers → Prop}
    {session : Session graph (Table Component)} {table : Table Key}
    (related : (reading graph).relates session.overlay session.tables table) :
    ResolvedTwice classes session ↔ Twice classes table := by
  refine exists_congr fun symbol => and_congr_right fun _ => forall_congr' fun place => ?_
  constructor
  · rintro ⟨id, listed, unfolds⟩
    obtain ⟨key, known, reads⟩ := Table.exists_of_forall₂ related.2.flip listed
    cases reads with
    | type unfolds' => exact unfolds'.unique unfolds ▸ known
  · intro listed
    obtain ⟨component, known, reads⟩ := Table.exists_of_forall₂ related.2 listed
    cases reads with
    | type unfolds => exact ⟨_, known, unfolds⟩

theorem nameScript_resolves (resolves : graph.Resolves graph' types) (apart : graph.ClassesApart)
    (formed : graph.WellFormed) (formed' : graph'.WellFormed) (target : Target) {id : SymbolId}
    (held : graph.Holds (.symbol id)) :
    (nameScript graph target id).Resolves graph.HasClass (nameScript graph' target id) := by
  have held' := resolves.holds_symbol held
  rw [nameScript, nameScript, Plan.declaration_settled formed formed.order held
      (Encoder.rank_le_depthBound formed.order held),
    Plan.declaration_settled formed' formed'.order held'
      (Encoder.rank_le_depthBound formed'.order held')]
  refine Plan.declaration_resolves resolves formed formed' held fun part listed => ?_
  have below := Item.below_ofDeclaration formed formed.order id part listed
  exact Plan.settled_resolves resolves apart formed formed' formed.order formed'.order below.1
    (Plan.keepsApart_ofDeclaration apart formed part listed)

/-- A declaration has a name if and only if it has one with pointers to records in place of the
classes. The names are the same, unless the latter comes to both pointers that a const class stands
for: the one of a parameter, which drops its own `const`, and the one inside another type. -/
theorem nameFor_resolved (formed : graph.WellFormed) (formed' : graph'.WellFormed)
    (resolves : graph.Resolves graph' types) (apart : graph.ClassesApart) (target : Target)
    {id : SymbolId} (held : graph.Holds (.symbol id)) :
    ((∃ name, nameFor graph target id = .ok name) ↔
      ∃ name, nameFor graph' target id = .ok name) ∧
    ∀ name name', nameFor graph target id = .ok name → nameFor graph' target id = .ok name' →
      (graph.ClassesMutable → name = name') ∧
      (name = name' ↔ ∀ tokens session,
        (encode target id : Encoder graph' (List Token)).run
          { tables := Table.unbounded } = .ok tokens session →
        ¬ ResolvedTwice graph.HasClass session) := by
  have scripts := nameScript_resolves resolves apart formed formed' target held
  constructor
  · have together := scripts.together Comparable.start
    rw [nameFor_eq_run formed held, nameFor_eq_run formed' (resolves.holds_symbol held)]
    revert together
    generalize (nameScript graph target id).run Table.unbounded = reached
    generalize (nameScript graph' target id).run Table.unbounded = reached'
    intro together
    cases together with
    | ok => exact ⟨fun _ => ⟨_, rfl⟩, fun _ => ⟨_, rfl⟩⟩
    | error => exact ⟨nofun, nofun⟩
  · intro name name' named named'
    obtain ⟨tokens, last, ran, rfl⟩ := run_of_nameFor formed named
    obtain ⟨tokens', session', last', encoded', ran', related', rfl⟩ :=
      session_of_nameFor formed' named'
    have texts : String.ofList (Token.write tokens) = String.ofList (Token.write tokens') ↔
        ¬ ResolvedTwice graph.HasClass session' := by
      rw [resolvedTwice_iff related']
      rcases scripts.run Aligned.start ran ran' with ⟨rfl, aligned⟩ | ⟨diverge, twice⟩
      · exact iff_of_true rfl aligned.once
      · exact iff_of_false (fun same => diverge.ne (String.ofList_injective same))
          (not_not_intro twice)
    refine ⟨fun mutable => texts.mpr ?_, texts.trans ⟨fun once tokens session encoded => ?_, ?_⟩⟩
    · rintro ⟨symbol, ⟨id, stored⟩, -⟩
      exact absurd (mutable id symbol _ stored) (by decide)
    · cases encoded'.symm.trans encoded
      exact once
    · exact fun once => once tokens' session' encoded'

end

/-- `void pass(const C, C, const C)` and `void keep(const C, const C *)` for a class `C`. -/
def keeps : Graph where
  symbols :=
    [{ ident := "app", sort := .moduleScope },
      { ident := "C", parent := some ⟨0⟩, sort := .record .klass },
      { ident := "pass", parent := some ⟨0⟩, sort := .function { type := ⟨4⟩ } },
      { ident := "keep", parent := some ⟨0⟩, sort := .function { type := ⟨5⟩ } }]
  types :=
    [{ form := .basic .void }, { form := .classRef ⟨1⟩ },
      { form := .classRef ⟨1⟩, quals := { isConst := true } }, { form := .pointer ⟨2⟩ },
      { form := .function
          { result := ⟨0⟩, params := [{ type := ⟨2⟩ }, { type := ⟨1⟩ }, { type := ⟨2⟩ }] } },
      { form := .function { result := ⟨0⟩, params := [{ type := ⟨2⟩ }, { type := ⟨3⟩ }] } }]

/-- The same functions with pointers to the record of `C`. -/
def keepsPointers : Graph where
  symbols :=
    [{ ident := "app", sort := .moduleScope },
      { ident := "C", parent := some ⟨0⟩, sort := .record .klass },
      { ident := "pass", parent := some ⟨0⟩, sort := .function { type := ⟨6⟩ } },
      { ident := "keep", parent := some ⟨0⟩, sort := .function { type := ⟨7⟩ } }]
  types :=
    [{ form := .basic .void }, { form := .record ⟨1⟩ }, { form := .pointer ⟨1⟩ },
      { form := .record ⟨1⟩, quals := { isConst := true } },
      { form := .pointer ⟨3⟩, quals := { isConst := true } }, { form := .pointer ⟨4⟩ },
      { form := .function
          { result := ⟨0⟩, params := [{ type := ⟨4⟩ }, { type := ⟨2⟩ }, { type := ⟨4⟩ }] } },
      { form := .function { result := ⟨0⟩, params := [{ type := ⟨4⟩ }, { type := ⟨5⟩ }] } }]

def keepsTypes (id : TypeId) : TypeId := ⟨[0, 2, 4, 5, 6, 7].getD id.index 8⟩

theorem keeps_built : keeps.Built :=
  Graph.built_of_takeAll?
    [.symbol { ident := "app", sort := .moduleScope },
      .symbol { ident := "C", parent := some ⟨0⟩, sort := .record .klass },
      .type { form := .basic .void }, .type { form := .classRef ⟨1⟩ },
      .type { form := .classRef ⟨1⟩, quals := { isConst := true } },
      .type { form := .pointer ⟨2⟩ },
      .type
        { form := .function
            { result := ⟨0⟩, params := [{ type := ⟨2⟩ }, { type := ⟨1⟩ }, { type := ⟨2⟩ }] } },
      .type { form := .function { result := ⟨0⟩, params := [{ type := ⟨2⟩ }, { type := ⟨3⟩ }] } },
      .symbol { ident := "pass", parent := some ⟨0⟩, sort := .function { type := ⟨4⟩ } },
      .symbol { ident := "keep", parent := some ⟨0⟩, sort := .function { type := ⟨5⟩ } }] rfl

theorem keepsPointers_built : keepsPointers.Built :=
  Graph.built_of_takeAll?
    [.symbol { ident := "app", sort := .moduleScope },
      .symbol { ident := "C", parent := some ⟨0⟩, sort := .record .klass },
      .type { form := .basic .void }, .type { form := .record ⟨1⟩ }, .type { form := .pointer ⟨1⟩ },
      .type { form := .record ⟨1⟩, quals := { isConst := true } },
      .type { form := .pointer ⟨3⟩, quals := { isConst := true } }, .type { form := .pointer ⟨4⟩ },
      .type
        { form := .function
            { result := ⟨0⟩, params := [{ type := ⟨4⟩ }, { type := ⟨2⟩ }, { type := ⟨4⟩ }] } },
      .type { form := .function { result := ⟨0⟩, params := [{ type := ⟨4⟩ }, { type := ⟨5⟩ }] } },
      .symbol { ident := "pass", parent := some ⟨0⟩, sort := .function { type := ⟨6⟩ } },
      .symbol { ident := "keep", parent := some ⟨0⟩, sort := .function { type := ⟨7⟩ } }] rfl

theorem keeps_resolves : keeps.Resolves keepsPointers keepsTypes where
  symbols := by
    rintro ⟨_ | _ | _ | _ | index⟩ symbol stored <;> cases stored <;> rfl
  type := by
    rintro ⟨_ | _ | _ | _ | _ | _ | index⟩ node stored other <;> cases stored <;>
      first | rfl | exact absurd rfl (other ⟨1⟩)
  classRef := by
    rintro ⟨_ | _ | _ | _ | _ | _ | index⟩ symbol quals stored <;> cases stored <;>
      exact ⟨_, rfl, rfl⟩

theorem keeps_classesApart : keeps.ClassesApart := by
  rintro ⟨_ | _ | _ | _ | _ | _ | index⟩ symbol quals stored <;> cases stored

/-- As long as the const class is a parameter only, there is one pointer for it. -/
theorem nameFor_resolved_pass :
    nameFor keeps .itanium64 ⟨2⟩ = .ok "_Z4passPK1CPS_S1_" ∧
      nameFor keepsPointers .itanium64 ⟨2⟩ = .ok "_Z4passPK1CPS_S1_" ∧
      ∀ tokens session,
        (encode Target.itanium64 ⟨2⟩ : Encoder keepsPointers (List Token)).run
          { tables := Table.unbounded } = .ok tokens session →
        ¬ ResolvedTwice keeps.HasClass session := by
  have named : nameFor keeps .itanium64 ⟨2⟩ = .ok "_Z4passPK1CPS_S1_" := by decide +kernel
  have named' : nameFor keepsPointers .itanium64 ⟨2⟩ = .ok "_Z4passPK1CPS_S1_" := by
    decide +kernel
  obtain ⟨-, names⟩ := nameFor_resolved keeps_built.wellFormed keepsPointers_built.wellFormed
    keeps_resolves keeps_classesApart .itanium64 (show keeps.Holds (.symbol ⟨2⟩) by decide)
  exact ⟨named, named', (names _ _ named named').2.mp rfl⟩

/-- A pointer to the const class is a pointer to a const pointer, but it refers back to the pointer
of the parameter, which is not const. -/
theorem nameFor_keep_differs :
    keeps.Built ∧ keepsPointers.Built ∧ keeps.Resolves keepsPointers keepsTypes ∧
      keeps.ClassesApart ∧
      nameFor keeps .itanium64 ⟨3⟩ = .ok "_Z4keepPK1CPS1_" ∧
      nameFor keepsPointers .itanium64 ⟨3⟩ = .ok "_Z4keepPK1CPKPS0_" :=
  ⟨keeps_built, keepsPointers_built, keeps_resolves, keeps_classesApart, by decide +kernel,
    by decide +kernel⟩

end LinkName.Itanium
