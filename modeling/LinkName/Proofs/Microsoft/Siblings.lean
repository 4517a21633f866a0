import LinkName.Proofs.Graph.Siblings
import LinkName.Proofs.Microsoft.Constness

/-!
Siblings in a specialization. Whatever is named as a member of a specialization is written as the
specialization, functions and variables included, so siblings of one sort have one name.
-/
namespace LinkName.Microsoft

/-! ## Symbols in each other's place -/

/-- The symbols in the types that the record is asked for. -/
def Script.symbols (script : Script) : List SymbolId := script.consulted.flatMap TypeTree.symbols

/-- Scripts that ask for two symbols in each other's place, or are refused both. -/
inductive Script.Swapped (first second : SymbolId) : Script → Script → Prop
  | refuse (refusal refusal' : Refusal) : Swapped first second (.refuse refusal) (.refuse refusal')
  | same (script : Script) : Swapped first second script script
  | append {left left' right right' : Script} (before : Swapped first second left left')
      (after : Swapped first second right right') :
      Swapped first second (.append left right) (.append left' right')
  | orTypeRef (tree : TypeTree) {body body' : Script} (swapped : Swapped first second body body') :
      Swapped first second (.orTypeRef tree body)
        (.orTypeRef (tree.relabel (Equiv.swap first second)) body')

namespace Script

variable {first second : SymbolId} {script script' : Script} {record last : Record}
variable {tokens : List Token} {label : SymbolId → SymbolId}

theorem relabel_eq_self (fixed : ∀ symbol ∈ script.symbols, label symbol = symbol) :
    script.relabel label = script := by
  have each {tree : TypeTree} {body : Script}
      (fixed : ∀ symbol ∈ (tree :: body.consulted).flatMap TypeTree.symbols, label symbol = symbol) :
      tree.relabel label = tree ∧ ∀ symbol ∈ body.symbols, label symbol = symbol :=
    ⟨TypeTree.relabel_eq_self fun symbol listed => fixed symbol (List.mem_append_left _ listed),
      fun symbol listed => fixed symbol (List.mem_append_right _ listed)⟩
  induction script with
  | write tokens | refuse refusal => rfl
  | append left right before after =>
      simp only [symbols, consulted, List.flatMap_append, List.mem_append] at fixed
      rw [relabel, before fun symbol listed => fixed symbol (.inl listed),
        after fun symbol listed => fixed symbol (.inr listed)]
  | level spelledOut body ih => rw [relabel, ih fixed]
  | orTypeRef tree body ih | typeRefAfter tree lead body ih =>
      obtain ⟨kept, rest⟩ := each fixed
      rw [relabel, kept, ih rest]

namespace Swapped

/-- Where only one script asks for each symbol, both write the same. -/
theorem run (swapped : Swapped first second script script') (without : second ∉ script.symbols)
    (without' : first ∉ script'.symbols) (ran : script.run record = .ok (tokens, last)) :
    script'.run (record.relabel (Equiv.swap first second)) =
      .ok (tokens, last.relabel (Equiv.swap first second)) := by
  have injective := (Equiv.swap first second).injective
  induction swapped generalizing record last tokens with
  | refuse refusal refusal' => cases ran
  | same script =>
      have fixed : script.relabel (Equiv.swap first second) = script :=
        relabel_eq_self fun symbol listed => Equiv.swap_apply_of_ne_of_ne
          (fun same => without' (same ▸ listed)) fun same => without (same ▸ listed)
      have carried := blind_run injective script record
      rw [fixed, ran] at carried
      exact carried
  | append before after ih ih' =>
      simp only [symbols, consulted, List.flatMap_append, List.mem_append, not_or] at without without'
      obtain ⟨_, middle, _, begun, ended, rfl⟩ := run_append ran
      exact run_append_of (ih without.1 without'.1 begun) (ih' without.2 without'.2 ended)
  | orTypeRef tree swapped ih =>
      simp only [symbols, consulted, List.flatMap_cons, List.mem_append, not_or] at without without'
      have found := Blind.findOrInsertType injective tree record
      simp only [Script.run, bind, StateT.bind, found] at ran ⊢
      cases sought : findOrInsertType tree record with
      | error refusal =>
          rw [sought] at ran
          cases ran
      | ok reached =>
          obtain ⟨index | none, middle⟩ := reached
          · rw [sought] at ran
            exact ih without.2 without'.2 ran
          · rw [sought] at ran
            cases ran
            rfl

end Swapped

end Script

theorem Around.swapped {first second : SymbolId} {part part' script script' : Script}
    (around : Around part part' script script') (swapped : Script.Swapped first second part part') :
    Script.Swapped first second script script' := by
  induction around with
  | refuse refusal refusal' => exact .refuse _ _
  | part => exact swapped
  | before around rest ih => exact .append ih (.same _)
  | after first around ih => exact .append (.same _) ih

/-! ## Plans -/

namespace Plan

open Script (Swapped)

variable {graph : Graph} {machine : Target} {plan : Plan} {first second : SymbolId}

theorem qualifiedName_of_levels (levels : graph.levels first = graph.levels second) :
    plan.qualifiedName graph machine first = plan.qualifiedName graph machine second := by
  unfold qualifiedName levelNames
  rw [levels]

section

variable {symbol symbol' : Symbol} (stored : graph.symbol first = .ok symbol)
variable (stored' : graph.symbol second = .ok symbol') (sorts : symbol.sort = symbol'.sort)
variable (levels : graph.levels first = graph.levels second)
include stored stored' sorts levels

theorem namedType_swapped (naming : Naming) (quals : Qualifiers) (place : Place) :
    Swapped first second
      (plan.namedType graph machine naming first (.named naming first quals) place)
      (plan.namedType graph machine naming second (.named naming second quals) place) := by
  have letter : recordLetter symbol = recordLetter symbol' := by
    unfold recordLetter
    rw [sorts]
  have lead : namedLead machine naming symbol (.named naming first quals) place =
      namedLead machine naming symbol' (.named naming second quals) place := by
    cases naming with
    | record => exact congrArg (fun letter => Except.ok (_ ++ [Token.text letter])) letter
    | _ => rfl
  simp only [namedType, stored, stored', Script.ofExcept, lead]
  cases namedLead machine naming symbol' (.named naming second quals) place with
  | error reason => exact .refuse _ _
  | ok tokens =>
      dsimp only
      rw [qualifiedName_of_levels levels]
      exact .same _

/-- A type below a pointer is not recorded. -/
theorem within_named_swapped (depth : Nat) (naming : Naming) (quals : Qualifiers) {place : Place}
    (indirect : place.indirect = true) :
    Swapped first second (within graph machine depth (.type (.named naming first quals) place))
      (within graph machine depth (.type (.named naming second quals) place)) := by
  cases depth with
  | zero => exact .refuse _ _
  | succ depth =>
      change Swapped first second (type graph machine (within graph machine depth) _ place)
        (type graph machine (within graph machine depth) _ place)
      have foreign : (TypeTree.named naming second quals).isForeign =
          (TypeTree.named naming first quals).isForeign := rfl
      unfold type
      rw [foreign]
      cases (TypeTree.named naming first quals).isForeign with
      | true => exact .refuse _ _
      | false =>
          have bare (tree : TypeTree) (body : Script) : Script.recorded place tree body = body := by
            rw [Script.recorded, indirect]
            rfl
          have body (naming : Naming) := @namedType_swapped graph machine (within graph machine depth)
            first second symbol symbol' stored stored' sorts levels naming quals place
          cases naming with
          | typedef => exact .refuse _ _
          | _ =>
              simp only [bare, Bool.false_eq_true, if_false]
              exact body _

theorem parameter_swapped (depth : Nat) (naming : Naming) (quals outer : Qualifiers) :
    Swapped first second
      ((within graph machine depth).parameter graph
        (.value, .layer .pointer (.named naming first quals) outer))
      ((within graph machine depth).parameter graph
        (.value, .layer .pointer (.named naming second quals) outer)) := by
  simp only [parameter, TypeTree.passed, TypeTree.isStaticArray, Bool.false_eq_true, if_false]
  cases depth with
  | zero => exact .refuse _ _
  | succ depth =>
      change Swapped first second (type graph machine (within graph machine depth) _ {})
        (type graph machine (within graph machine depth) _ {})
      have foreign : (TypeTree.layer .pointer (.named naming second quals) outer).isForeign =
          (TypeTree.layer .pointer (.named naming first quals) outer).isForeign := rfl
      unfold type
      rw [foreign]
      cases (TypeTree.layer .pointer (.named naming first quals) outer).isForeign with
      | true => exact .refuse _ _
      | false =>
          have inner : Swapped first second
              (within graph machine depth (.type (.named naming first quals) (Place.below {}))) _ :=
            within_named_swapped stored stored' sorts levels depth naming quals rfl
          have recorded := Swapped.orTypeRef (.layer .pointer (.named naming first quals) outer)
            (Swapped.append (.same (.write (modifier machine
              (.layer .pointer (.named naming first quals) outer) {} ++
                pointerLetter outer.isConst :: width machine))) inner)
          rw [TypeTree.relabel_layer, TypeTree.relabel_named, Equiv.swap_apply_left] at recorded
          exact recorded

/-- Siblings of one sort and access are written alike, or are refused both. -/
theorem declaration_siblings (parents : symbol.parent = symbol'.parent)
    (accesses : symbol.access = symbol'.access) :
    plan.declaration graph machine first = plan.declaration graph machine second ∨
      ∃ refusal refusal', plan.declaration graph machine first = .refuse refusal ∧
        plan.declaration graph machine second = .refuse refusal' := by
  have names : plan.qualifiedName graph machine first = plan.qualifiedName graph machine second :=
    qualifiedName_of_levels levels
  have around := Graph.scopeParent_congr stored stored' parents.symm
  simp only [declaration, stored, stored', Script.ofExcept, ← sorts]
  cases symbol.sort with
  | var info =>
      simp only [variableName]
      split
      · exact .inl (by rw [names, around, accesses])
      · exact .inr ⟨_, _, rfl, rfl⟩
  | function info =>
      refine .inl ?_
      simp only [functionName, isMember]
      rw [names, accesses, parents]
  | _ => exact .inr ⟨_, _, rfl, rfl⟩

end

end Plan

section

variable {graph : Graph} {target : Target} {first second id id' : SymbolId} {text : String}
variable {symbol symbol' : Symbol} (formed : graph.WellFormed)
variable (stored : graph.symbol first = .ok symbol) (stored' : graph.symbol second = .ok symbol')
variable (sorts : symbol.sort = symbol'.sort)
variable (levels : graph.levels first = graph.levels second)
include formed stored stored' sorts levels

/-- Siblings of one sort and access that share their levels have one name. -/
theorem nameFor_siblings (parents : symbol.parent = symbol'.parent)
    (accesses : symbol.access = symbol'.access) (named : nameFor graph target first = .ok text) :
    nameFor graph target second = .ok text := by
  rw [nameFor_eq_run formed (Graph.holds_symbol_iff.mpr ⟨_, stored⟩)] at named
  rw [nameFor_eq_run formed (Graph.holds_symbol_iff.mpr ⟨_, stored'⟩)]
  have alike := @Plan.declaration_siblings graph target
    (Plan.within graph target (Encoder.depthBound graph)) first second symbol symbol'
    stored stored' sorts levels parents accesses
  rcases alike with same | ⟨refusal, refusal', refused, -⟩
  · exact (congrArg (fun script => _ <$> Script.run script _) same).symm.trans named
  · unfold nameScript at named
    rw [refused] at named
    cases named

/-- Functions that differ in one parameter, which points to one of two symbols of the same levels,
have one name, unless it asks for the other symbol as well. -/
theorem nameFor_of_pointer {naming : Naming} {quals outer : Qualifiers} {type type' : TypeId}
    (differ : graph.DifferInParam id id' .value type type')
    (typed : graph.tree type = .layer .pointer (.named naming first quals) outer)
    (typed' : graph.tree type' = .layer .pointer (.named naming second quals) outer)
    (without : second ∉ (nameScript graph target id).symbols)
    (without' : first ∉ (nameScript graph target id').symbols)
    (named : nameFor graph target id = .ok text) : nameFor graph target id' = .ok text := by
  have part := @Plan.parameter_swapped graph target first second symbol symbol' stored
    stored' sorts levels (Encoder.depthBound graph) naming quals outer
  rw [← typed, ← typed'] at part
  have swapped : Script.Swapped first second (nameScript graph target id)
      (nameScript graph target id') := (around_of_differ formed differ _ _).swapped part
  obtain ⟨held, held'⟩ := holds_of_differ differ
  rw [nameFor_eq_run formed held] at named
  rw [nameFor_eq_run formed held']
  cases ran : (nameScript graph target id).run (Record.bounded 10) with
  | error refusal =>
      rw [ran] at named
      cases named
  | ok reached =>
      rw [ran] at named
      have ran' := swapped.run without without' ran
      exact (congrArg (Functor.map _) ran').trans named

end

end LinkName.Microsoft
