import LinkName.Proofs.Graph.Template
import LinkName.Proofs.Itanium.Settled

/-!
Properties that scripts have when everything they are put together from has them. The table matters
only to the names of scopes, records, enumerations and templates and to types; for the rest, such a
property of the parts of an item is one of the item.
-/
namespace LinkName.Itanium

namespace Script

/-- A property that scripts have when everything they are put together from has it. -/
structure Additive (property : Script → Prop) : Prop where
  write : ∀ tokens, property (.write tokens)
  refuse : ∀ refusal, property (.refuse refusal)
  append : ∀ {first second}, property first → property second → property (.append first second)

namespace Additive

variable {property : Script → Prop}

theorem concat (additive : Additive property) {scripts : List Script}
    (each : ∀ script ∈ scripts, property script) : property (concat scripts) := by
  induction scripts with
  | nil => exact additive.write []
  | cons first rest ih =>
      exact additive.append (each first List.mem_cons_self)
        (ih fun script listed => each script (List.mem_cons_of_mem _ listed))

theorem ofExcept (additive : Additive property) {α : Type} {found : Except Fault α}
    {next : α → Script} (rest : ∀ value, found = .ok value → property (next value)) :
    property (.ofExcept found next) := by
  cases found with
  | error fault => exact additive.refuse _
  | ok value => exact rest value rfl

end Additive

/-- A property that scripts keep when the key is asked for or stored around them. -/
structure Keyed (property : Script → Prop) (key : Key) : Prop where
  orRef : ∀ {body}, property body → property (.orRef key body)
  thenStore : ∀ {body}, property body → property (.thenStore key body)
  named : ∀ tokens, property (.named key (.write tokens))

theorem of_thenStore {property : Script → Prop} {key : Key} {body : Script}
    (stores : property body → property (.thenStore key body)) (condition : Bool)
    (bare : property body) : property (.thenStoreIf condition key body) := by
  cases condition with
  | true => exact stores bare
  | false => exact bare

end Script

namespace Plan

open Script (Additive)

variable {graph : Graph} {machine : Target} {plan : Plan} {property : Script → Prop}
variable (additive : Additive property)
include additive

theorem arguments_additive {owner : SymbolId} {args : List TemplateArg}
    (parts : ∀ part ∈ (LinkName.Item.ofArguments owner args : List Item), property (plan part)) :
    property (plan.arguments graph owner args) := by
  induction args with
  | nil => exact additive.write []
  | cons first rest ih =>
      cases first with
      | pack inner =>
          cases rest with
          | nil =>
              refine additive.append (additive.write _)
                (additive.append (additive.concat ?_) (additive.write _))
              intro script listed
              obtain ⟨arg, known, rfl⟩ := List.mem_map.mp listed
              exact parts _ (List.mem_append_left _ (List.mem_map_of_mem known))
          | cons second rest => exact additive.refuse _
      | _ =>
          obtain ⟨head, tail⟩ := List.forall_mem_cons.mp parts
          exact additive.append head (ih tail)

theorem parameters_additive {params : List (Passing × TypeTree)} (isVariadic : Bool)
    (parts : ∀ part ∈ Item.ofParameters params, property (plan part)) :
    property (plan.parameters graph params isVariadic) := by
  refine additive.append (additive.concat ?_) (additive.write _)
  intro script listed
  obtain ⟨param, known, rfl⟩ := List.mem_map.mp listed
  unfold parameter
  split
  · exact additive.refuse _
  · exact parts _ (List.mem_map_of_mem known)

theorem functionType_additive {result : TypeTree} {params : List (Passing × TypeTree)}
    {convention : Convention}
    (parts : ∀ part ∈ Item.ofType graph (.function result params convention {}),
      property (plan part)) :
    property (plan.functionType graph result params convention) := by
  obtain ⟨returned, listed⟩ := List.forall_mem_cons.mp parts
  exact additive.append (additive.write _) (additive.append returned
    (additive.append (parameters_additive additive _ listed) (additive.write _)))

theorem type_additive {tree : TypeTree} {place : Place} (keyed : Script.Keyed property (.type tree))
    (unnamed : ∀ {body}, property body → property (.thenStore .unnamed body))
    (mention : ∀ naming symbol quals, tree = .named naming symbol quals →
      property (plan.mention graph symbol))
    (parts : ∀ part ∈ Item.ofType graph tree, property (plan part)) :
    property (plan.type graph machine tree place) := by
  unfold type
  split
  · exact additive.refuse _
  · cases tree with
    | basic basic quals =>
        dsimp only [basicType]
        split
        · exact keyed.named _
        · exact additive.write _
    | layer around inner quals =>
        dsimp only
        split
        · exact keyed.orRef (keyed.thenStore
            (additive.append (additive.write _) (parts _ List.mem_cons_self)))
        · exact additive.refuse _
    | named naming symbol quals =>
        have body (lead : List Token) :
            property (.append (.write lead) (plan.mention graph symbol)) :=
          additive.append (additive.write lead) (mention naming symbol quals rfl)
        cases naming with
        | typedef => exact additive.refuse _
        | classRef =>
            exact keyed.orRef (keyed.thenStore (Script.of_thenStore unnamed _ (body _)))
        | record | enumeration =>
            exact keyed.orRef (Script.of_thenStore keyed.thenStore _ (body _))
    | assocArray key value quals => exact additive.refuse _
    | function result params convention quals =>
        exact keyed.orRef (keyed.thenStore (functionType_additive additive parts))

omit additive in
/-- A symbol that is not a specialization is written as its identifier. -/
theorem sourceName_eq {id : SymbolId} {symbol : Symbol} (stored : graph.symbol id = .ok symbol)
    (plain : symbol.template? = none) :
    plan.sourceName graph id = .write [.source symbol.ident] := by
  rcases symbol with ⟨ident, parent, access, sort⟩
  simp only [sourceName, stored, Script.ofExcept]
  cases sort <;> simp_all [Symbol.template?]

omit additive in
/-- Functions of one scope, identifier and role have one path, apart from their types. -/
theorem functionPath_congr {id id' : SymbolId} {symbol symbol' : Symbol} {info info' : FunctionInfo}
    (stored : graph.symbol id = .ok symbol) (stored' : graph.symbol id' = .ok symbol')
    (plain : symbol.template? = none) (plain' : symbol'.template? = none)
    (parents : symbol.parent = symbol'.parent) (idents : symbol.ident = symbol'.ident)
    (roles : info.role = info'.role) (consts : info.isConst = info'.isConst) :
    plan.functionPath graph info id = plan.functionPath graph info' id' := by
  have names : plan.sourceName graph id = plan.sourceName graph id' := by
    rw [sourceName_eq stored plain, sourceName_eq stored' plain', idents]
  simp only [functionPath, ownName, Graph.scopeParent_congr stored' stored parents, names, roles,
    consts]

omit additive in
/-- A template is written as the identifier of its specializations. -/
theorem sourceName_template (proper : graph.ProperTemplates) {id template : SymbolId}
    {symbol : Symbol} (stored : graph.symbol id = .ok symbol)
    (special : symbol.template? = some template) :
    plan.sourceName graph template = .write [.source symbol.ident] := by
  obtain ⟨general, member, known, sort, ident, -⟩ := proper.general_eq stored special
  exact ident ▸ sourceName_eq known (by simp [Symbol.template?, sort])

variable {id : SymbolId} {symbol : Symbol} (stored : graph.symbol id = .ok symbol)
include stored

theorem variableName_additive (asArgument : Bool) {info : VariableInfo}
    (sort : symbol.sort = .var info)
    (parts : ∀ part ∈ Item.ofScope graph id, property (plan part)) :
    property (plan.variableName graph machine asArgument id symbol info) := by
  have source : property (plan.sourceName graph id) :=
    sourceName_eq stored (by simp [Symbol.template?, sort]) ▸ additive.write _
  unfold variableName
  split
  · refine additive.ofExcept fun scope found => ?_
    rw [Item.ofScope, found] at parts
    cases scope with
    | some outer =>
        exact additive.append (additive.write _) (additive.append
          (parts _ List.mem_cons_self) (additive.append source (additive.write _)))
    | none =>
        dsimp only
        split
        · exact additive.append (additive.write _) source
        · exact additive.write _
  · exact additive.refuse _

theorem functionName_additive {info : FunctionInfo} (sort : symbol.sort = .function info)
    (parts : ∀ part ∈ Item.ofDeclaration graph id, property (plan part)) :
    property (plan.functionName graph machine id info) := by
  have source : property (plan.sourceName graph id) :=
    sourceName_eq stored (by simp [Symbol.template?, sort]) ▸ additive.write _
  have path : property (plan.functionPath graph info id) := by
    refine additive.ofExcept fun scope found => ?_
    have outside : ∀ part ∈ Item.ofScope graph id, property (plan part) := fun part listed =>
      parts part (List.mem_append_left _ (List.mem_append_left _ listed))
    rw [Item.ofScope, found] at outside
    cases scope with
    | none => exact source
    | some outer =>
        have own : property (plan.ownName graph info id) := by
          unfold ownName
          split
          · exact additive.write _
          · exact source
        exact additive.append (additive.write _) (additive.append
          (outside _ List.mem_cons_self) (additive.append own (additive.write _)))
  have signature : ∀ part ∈ Item.ofSignature graph id, property (plan part) :=
    fun part listed => parts part (List.mem_append_right _ listed)
  rcases symbol with ⟨ident, parent, access, kind⟩
  obtain rfl : kind = .function info := sort
  simp only [Item.ofSignature, stored] at signature
  unfold functionName
  cases same : graph.tree info.type with
  | function result params convention quals =>
      simp only [same] at signature ⊢
      refine additive.append (additive.write _) ?_
      split
      · exact additive.append path (parameters_additive additive _ signature)
      · exact source
  | _ => exact additive.refuse _

theorem functionArgument_additive {info : FunctionInfo} (sort : symbol.sort = .function info)
    (parts : ∀ part ∈ Item.ofDeclaration graph id, property (plan part)) :
    property (plan.functionArgument graph machine id info) := by
  unfold functionArgument
  split
  · exact additive.ofExcept fun scope _ => additive.append (additive.write _)
      (additive.append (functionName_additive additive stored sort parts) (additive.write _))
  · exact additive.refuse _

omit stored in
theorem argument_additive {owner : SymbolId} {arg : TemplateArg}
    (parts : ∀ part ∈ Item.parts graph (.argument owner arg), property (plan part))
    (mention : ∀ target, arg = .symbolAlias target → property (plan.mention graph target)) :
    property (plan.argument graph machine owner arg) := by
  cases arg with
  | type id => exact parts _ List.mem_cons_self
  | value id number =>
      simp only [argument]
      split
      · exact additive.append (additive.write _)
          (additive.append (parts _ List.mem_cons_self) (additive.write _))
      · exact additive.refuse _
  | typeAlias id | pack args => exact additive.refuse _
  | symbolAlias target =>
      have declared : ∀ part ∈ Item.ofDeclaration graph target, property (plan part) :=
        fun part listed => parts part (List.mem_append_left _ listed)
      refine additive.ofExcept fun symbol stored => ?_
      cases sort : symbol.sort with
      | function info => exact functionArgument_additive additive stored sort declared
      | var info =>
          exact additive.append (additive.write _) (additive.append
            (variableName_additive additive stored true sort fun part listed =>
              declared part (List.mem_append_left _ (List.mem_append_left _ listed)))
            (additive.write _))
      | template member =>
          cases member with
          | none => exact additive.refuse _
          | some member => exact mention target rfl
      | _ => exact additive.refuse _

omit stored in
theorem declaration_additive
    (parts : ∀ part ∈ Item.ofDeclaration graph id, property (plan part)) :
    property (plan.declaration graph machine id) := by
  refine additive.ofExcept fun symbol stored => ?_
  cases sort : symbol.sort with
  | function info => exact functionName_additive additive stored sort parts
  | var info =>
      exact variableName_additive additive stored false sort fun part listed =>
        parts part (List.mem_append_left _ (List.mem_append_left _ listed))
  | _ => exact additive.refuse _

end Plan

end LinkName.Itanium
