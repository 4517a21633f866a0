import LinkName.Proofs.Microsoft.Settled

/-!
Properties that scripts have when everything they are put together from has them. Only levels and
types are referred back to as a whole, so besides those such a property of the parts of an item is one
of the item.
-/
namespace LinkName.Microsoft

namespace Script

/-- A property that scripts have when everything they are put together from has it. -/
structure Additive (property : Script → Prop) : Prop where
  write : ∀ tokens, property (.write tokens)
  refuse : ∀ refusal, property (.refuse refusal)
  append : ∀ {first second}, property first → property second → property (.append first second)

namespace Additive

variable {property : Script → Prop}

theorem concat (additive : Additive property) {scripts : List Script}
    (each : ∀ script ∈ scripts, property script) : property (concat scripts) := by
  induction scripts with
  | nil => exact additive.write []
  | cons first rest ih =>
      exact additive.append (each first List.mem_cons_self)
        (ih fun script listed => each script (List.mem_cons_of_mem _ listed))

theorem ofExcept (additive : Additive property) {α : Type} {found : Except Fault α}
    {next : α → Script} (rest : ∀ value, found = .ok value → property (next value)) :
    property (.ofExcept found next) := by
  cases found with
  | error fault => exact additive.refuse _
  | ok value => exact rest value rfl

end Additive

end Script

namespace Plan

open Script (Additive)

variable {graph : Graph} {machine : Target} {plan : Plan} {property : Script → Prop}
variable (additive : Additive property) {id : SymbolId}
include additive

theorem arguments_additive {owner : SymbolId} {args : List TemplateArg}
    (parts : ∀ part ∈ (LinkName.Item.ofArguments owner args : List Item), property (plan part)) :
    property (plan.arguments graph owner args) := by
  induction args with
  | nil => exact additive.write []
  | cons first rest ih =>
      cases first with
      | pack inner =>
          cases rest with
          | nil =>
              refine additive.concat fun script listed => ?_
              obtain ⟨arg, known, rfl⟩ := List.mem_map.mp listed
              exact parts _ (List.mem_append_left _ (List.mem_map_of_mem known))
          | cons second rest => exact additive.refuse _
      | _ =>
          obtain ⟨head, tail⟩ := List.forall_mem_cons.mp parts
          exact additive.append head (ih tail)

/-- What a level needs: in the legacy dialect a specialization is written as it is, and in the modern
one its arguments are inside of a level. -/
theorem levelName_layered {inner : Script → Prop} (inside : Additive inner)
    (level : ∀ spelledOut {body}, inner body → property (.level spelledOut body))
    (spelledOut : Bool)
    (legacy : machine.isLegacy = true → ∀ part ∈ Item.ofLevel graph id, property (plan part))
    (modern : machine.isLegacy = false →
      ∀ owner arg, .argument owner arg ∈ Item.ofLevel graph id → inner (plan (.argument owner arg))) :
    property (plan.levelName graph machine spelledOut id) := by
  refine additive.ofExcept fun symbol stored => ?_
  rcases symbol with ⟨ident, parent, access, sort⟩
  have plain : property (.level spelledOut (.write [.ident ident])) := level _ (inside.write _)
  cases sort with
  | specialization template args =>
      simp only [Item.ofLevel, stored, LinkName.Item.ofName] at legacy modern
      cases dialect : machine.isLegacy with
      | true =>
          have parts := legacy dialect
          have scope : property (plan.repeatedScope machine
              ⟨ident, parent, access, .specialization template args⟩) := by
            cases parent with
            | none => exact additive.write _
            | some parent =>
                simp only [repeatedScope, dialect, if_true]
                exact parts _ (List.mem_append_left _ List.mem_cons_self)
          have listed : property (plan.arguments graph id args) :=
            arguments_additive additive fun part listed => parts part (List.mem_append_right _ listed)
          simp only [if_true]
          exact additive.append (additive.append (additive.write _) (additive.append scope listed))
            (additive.write _)
      | false =>
          have scope : plan.repeatedScope machine
              ⟨ident, parent, access, .specialization template args⟩ = .write [] := by
            cases parent <;> simp [repeatedScope, dialect]
          have listed : inner (plan.arguments graph id args) := by
            refine arguments_additive inside fun part listed => ?_
            obtain ⟨arg, rfl⟩ := LinkName.Item.eq_argument_of_mem listed
            exact modern dialect _ _ (List.mem_append_right _ listed)
          simp only [scope, Bool.false_eq_true, if_false]
          exact level _ (inside.append (inside.write _) (inside.append (inside.write _) listed))
  | function info =>
      rcases info with ⟨type, role, needsThis, isVirtual, isConst⟩
      cases role with
      | destructor => exact additive.write _
      | _ => exact plain
  | _ => exact plain

theorem levelNames_layered {inner : Script → Prop} (inside : Additive inner)
    (level : ∀ spelledOut {body}, inner body → property (.level spelledOut body))
    (spelledOut : Bool)
    (legacy : machine.isLegacy = true → ∀ part ∈ Item.ofLevels graph id, property (plan part))
    (modern : machine.isLegacy = false →
      ∀ owner arg, .argument owner arg ∈ Item.ofLevels graph id → inner (plan (.argument owner arg))) :
    property (plan.levelNames graph machine spelledOut id) := by
  refine additive.ofExcept fun names found => additive.concat fun script listed => ?_
  obtain ⟨name, known, rfl⟩ := List.mem_map.mp listed
  simp only [Item.ofLevels, found] at legacy modern
  have widen {part : Item} (inside : part ∈ Item.ofLevel graph name) :
      part ∈ names.flatMap (Item.ofLevel graph) := List.mem_flatMap.mpr ⟨name, known, inside⟩
  exact levelName_layered additive inside level spelledOut
    (fun dialect part inside => legacy dialect part (widen inside))
    fun dialect owner arg inside => modern dialect owner arg (widen inside)

theorem levelNames_additive
    (level : ∀ spelledOut {body}, property body → property (.level spelledOut body))
    (spelledOut : Bool) (parts : ∀ part ∈ Item.ofLevels graph id, property (plan part)) :
    property (plan.levelNames graph machine spelledOut id) :=
  levelNames_layered additive additive level spelledOut (fun _ => parts)
    fun _ _ _ listed => parts _ listed

theorem qualifiedName_additive
    (level : ∀ spelledOut {body}, property body → property (.level spelledOut body))
    (parts : ∀ part ∈ Item.ofLevels graph id, property (plan part)) :
    property (plan.qualifiedName graph machine id) :=
  additive.append (levelNames_additive additive level false parts) (additive.write _)

theorem functionType_additive {tree : TypeTree} (needsThis isStructor : Bool)
    (parts : ∀ part ∈ Item.ofFunction tree, property (plan part)) :
    property (plan.functionType graph machine tree needsThis isStructor) := by
  unfold functionType
  cases tree with
  | function result params convention quals =>
      obtain ⟨returned, listed⟩ := List.forall_mem_cons.mp parts
      dsimp only
      split
      · exact additive.refuse _
      · refine additive.append (additive.write _) (additive.append ?_ ?_)
        · unfold Plan.result
          split
          · exact additive.write _
          · exact additive.append (additive.write _) returned
        · refine additive.append (additive.concat fun script known => ?_) (additive.write _)
          obtain ⟨param, inside, rfl⟩ := List.mem_map.mp known
          unfold parameter
          split
          · exact additive.refuse _
          · exact listed _ (List.mem_map_of_mem inside)
  | _ => exact additive.refuse _

variable (name : property (plan.qualifiedName graph machine id))
variable {symbol : Symbol} (stored : graph.symbol id = .ok symbol)
include name stored

theorem functionName_additive {info : FunctionInfo} (sort : symbol.sort = .function info)
    (signature : ∀ part ∈ Item.ofSignature graph id, property (plan part)) :
    property (plan.functionName graph machine id symbol info) := by
  rcases symbol with ⟨ident, parent, access, kind⟩
  obtain rfl : kind = .function info := sort
  simp only [Item.ofSignature, stored] at signature
  exact additive.append (additive.write _) (additive.append name
    (additive.append (additive.write _) (functionType_additive additive _ _ signature)))

theorem variableName_additive {info : VariableInfo} (sort : symbol.sort = .var info)
    (signature : ∀ part ∈ Item.ofSignature graph id, property (plan part)) :
    property (plan.variableName graph machine id symbol info) := by
  rcases symbol with ⟨ident, parent, access, kind⟩
  obtain rfl : kind = .var info := sort
  simp only [Item.ofSignature, stored] at signature
  unfold variableName
  split
  · refine additive.append (additive.write _) (additive.append name
      (additive.ofExcept fun scope _ => ?_))
    split
    · exact additive.refuse _
    · refine additive.append (additive.write _) (additive.append ?_ (additive.write _))
      unfold variableType
      split
      · exact signature _ List.mem_cons_self
      · exact signature _ (List.mem_cons_of_mem _ List.mem_cons_self)
  · exact additive.refuse _

omit name stored in
theorem argument_additive {owner : SymbolId} {arg : TemplateArg}
    (names : ∀ target, arg = .symbolAlias target →
      property (plan.qualifiedName graph machine target))
    (parts : ∀ part ∈ Item.parts graph (.argument owner arg), property (plan part)) :
    property (plan.argument graph machine owner arg) := by
  cases arg with
  | type id => exact parts _ List.mem_cons_self
  | value id number =>
      simp only [argument]
      split
      · exact additive.write _
      · exact additive.refuse _
  | typeAlias id | pack args => exact additive.refuse _
  | symbolAlias target =>
      have name := names target rfl
      have signature : ∀ part ∈ Item.ofSignature graph target, property (plan part) :=
        fun part listed => parts part (List.mem_append_right _ listed)
      refine additive.ofExcept fun symbol stored => ?_
      cases sort : symbol.sort with
      | function info =>
          exact additive.append (additive.write _)
            (functionName_additive additive name stored sort signature)
      | var info =>
          exact additive.append (additive.write _)
            (variableName_additive additive name stored sort signature)
      | template member =>
          cases member with
          | none => exact additive.refuse _
          | some member =>
              dsimp only
              split
              · exact additive.append (additive.write _) name
              · exact additive.refuse _
      | _ => exact additive.refuse _

omit stored in
theorem declaration_additive
    (signature : ∀ part ∈ Item.ofSignature graph id, property (plan part)) :
    property (plan.declaration graph machine id) := by
  refine additive.ofExcept fun symbol stored => ?_
  cases sort : symbol.sort with
  | function info => exact functionName_additive additive name stored sort signature
  | var info => exact variableName_additive additive name stored sort signature
  | _ => exact additive.refuse _

end Plan

end LinkName.Microsoft
