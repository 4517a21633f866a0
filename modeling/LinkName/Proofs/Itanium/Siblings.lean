import LinkName.Proofs.Graph.Siblings
import LinkName.Proofs.Itanium.Instances
import LinkName.Proofs.Itanium.Token
import LinkName.Proofs.Microsoft.Constness

/-!
Siblings in a specialization. A function or a variable is written as its identifier behind its scope,
so siblings of one sort have different names. A record or an enumeration is written as the
specialization, so that it makes no difference which member of it a type names.
-/
namespace LinkName.Itanium

/-! ## Identifiers -/

/-- Scripts that differ in one identifier, or are refused both. -/
inductive Script.Spells (ident ident' : String) : Script → Script → Prop
  | refuse (refusal refusal' : Refusal) : Spells ident ident' (.refuse refusal) (.refuse refusal')
  | source : Spells ident ident' (.write [.source ident]) (.write [.source ident'])
  | before {script script' : Script} (spells : Spells ident ident' script script') (rest : Script) :
      Spells ident ident' (.append script rest) (.append script' rest)
  | after (first : Script) {script script' : Script} (spells : Spells ident ident' script script') :
      Spells ident ident' (.append first script) (.append first script')

namespace Script.Spells

variable {ident ident' : String} {script script' : Script} {table last last' : Table Key}
variable {tokens tokens' : List Token}

/-- Both write the same around the identifier, and leave one table behind. -/
theorem run (spells : Spells ident ident' script script')
    (ran : script.run table = .ok (tokens, last)) (ran' : script'.run table = .ok (tokens', last')) :
    last = last' ∧ ∃ lead rest, tokens = lead ++ .source ident :: rest ∧
      tokens' = lead ++ .source ident' :: rest := by
  induction spells generalizing table last last' tokens tokens' with
  | refuse refusal refusal' => cases ran
  | source =>
      cases ran
      cases ran'
      exact ⟨rfl, [], [], rfl, rfl⟩
  | before spells script ih =>
      obtain ⟨_, middle, more, begun, ended, rfl⟩ := run_append ran
      obtain ⟨_, middle', more', begun', ended', rfl⟩ := run_append ran'
      obtain ⟨rfl, lead, rest, rfl, rfl⟩ := ih begun begun'
      cases ended.symm.trans ended'
      exact ⟨rfl, lead, rest ++ more, by simp, by simp⟩
  | after first spells ih =>
      obtain ⟨more, middle, _, begun, ended, rfl⟩ := run_append ran
      obtain ⟨more', middle', _, begun', ended', rfl⟩ := run_append ran'
      cases begun.symm.trans begun'
      obtain ⟨rfl, lead, rest, rfl, rfl⟩ := ih ended ended'
      exact ⟨rfl, more ++ lead, rest, by simp, by simp⟩

theorem ident_eq (spells : Spells ident ident' script script')
    (ran : script.run table = .ok (tokens, last)) (ran' : script'.run table = .ok (tokens', last'))
    (same : Token.write tokens = Token.write tokens') : ident = ident' := by
  obtain ⟨-, lead, rest, rfl, rfl⟩ := spells.run ran ran'
  rw [Token.write_append, Token.write_append, List.append_cancel_left_eq] at same
  exact sourceChars_injective (List.append_cancel_right same)

end Script.Spells

/-! ## Symbols in each other's place -/

def Key.symbols : Key → List SymbolId
  | .symbol id => [id]
  | .type tree => tree.symbols
  | .unnamed => []

/-- The symbols in what the table is asked for or given. -/
def Script.symbols (script : Script) : List SymbolId := script.keys.flatMap Key.symbols

theorem Key.relabel_eq_self {label : SymbolId → SymbolId} {key : Key}
    (fixed : ∀ symbol ∈ key.symbols, label symbol = symbol) : key.relabel label = key := by
  cases key with
  | symbol id => exact congrArg Key.symbol (fixed id List.mem_cons_self)
  | type tree => exact congrArg Key.type (TypeTree.relabel_eq_self fixed)
  | unnamed => rfl

/-- Scripts that ask for two symbols in each other's place, or are refused both. -/
inductive Script.Swapped (first second : SymbolId) : Script → Script → Prop
  | refuse (refusal refusal' : Refusal) : Swapped first second (.refuse refusal) (.refuse refusal')
  | same (script : Script) : Swapped first second script script
  | append {left left' right right' : Script} (before : Swapped first second left left')
      (after : Swapped first second right right') :
      Swapped first second (.append left right) (.append left' right')
  | orRef (key : Key) {body body' : Script} (swapped : Swapped first second body body') :
      Swapped first second (.orRef key body)
        (.orRef (key.relabel (Equiv.swap first second)) body')
  | thenStore (key : Key) {body body' : Script} (swapped : Swapped first second body body') :
      Swapped first second (.thenStore key body)
        (.thenStore (key.relabel (Equiv.swap first second)) body')

namespace Script

variable {first second : SymbolId} {script script' : Script} {table last : Table Key}
variable {tokens : List Token} {label : SymbolId → SymbolId}

theorem relabel_eq_self (fixed : ∀ symbol ∈ script.symbols, label symbol = symbol) :
    script.relabel label = script := by
  have each {key : Key} {body : Script} (fixed : ∀ symbol ∈ (key :: body.keys).flatMap Key.symbols,
      label symbol = symbol) :
      key.relabel label = key ∧ ∀ symbol ∈ body.symbols, label symbol = symbol :=
    ⟨Key.relabel_eq_self fun symbol listed => fixed symbol (List.mem_append_left _ listed),
      fun symbol listed => fixed symbol (List.mem_append_right _ listed)⟩
  induction script with
  | write tokens | refuse refusal => rfl
  | append left right before after =>
      simp only [symbols, keys, List.flatMap_append, List.mem_append] at fixed
      rw [relabel, before fun symbol listed => fixed symbol (.inl listed),
        after fun symbol listed => fixed symbol (.inr listed)]
  | orRef key body ih | storeThen key body ih | thenStore key body ih | unlessKnown key body ih =>
      obtain ⟨kept, rest⟩ := each fixed
      rw [relabel, kept, ih rest]

namespace Swapped

theorem orKey {key key' : Key} (relabeled : key.relabel (Equiv.swap first second) = key')
    {body body' : Script} (swapped : Swapped first second body body') :
    Swapped first second (.orRef key body) (.orRef key' body') :=
  relabeled ▸ .orRef key swapped

theorem compound {key key' : Key} (relabeled : key.relabel (Equiv.swap first second) = key')
    {body body' : Script} (swapped : Swapped first second body body') :
    Swapped first second (.compound key body) (.compound key' body') :=
  relabeled ▸ .orRef key (.thenStore key swapped)

theorem thenStoreIf {key key' : Key} (relabeled : key.relabel (Equiv.swap first second) = key')
    {body body' : Script} (condition : Bool) (swapped : Swapped first second body body') :
    Swapped first second (.thenStoreIf condition key body) (.thenStoreIf condition key' body') := by
  subst relabeled
  cases condition with
  | true => exact .thenStore key swapped
  | false => exact swapped

/-- Where only one script asks for each symbol, both write the same. -/
theorem run (swapped : Swapped first second script script') (without : second ∉ script.symbols)
    (without' : first ∉ script'.symbols) (ran : script.run table = .ok (tokens, last)) :
    script'.run (table.map (Key.relabel (Equiv.swap first second))) =
      .ok (tokens, last.map (Key.relabel (Equiv.swap first second))) := by
  have injective := (Equiv.swap first second).injective
  induction swapped generalizing table last tokens with
  | refuse refusal refusal' => cases ran
  | same script =>
      have fixed : script.relabel (Equiv.swap first second) = script :=
        relabel_eq_self fun symbol listed => Equiv.swap_apply_of_ne_of_ne
          (fun same => without' (same ▸ listed)) fun same => without (same ▸ listed)
      have carried := run_relabel injective script table
      rw [fixed, ran] at carried
      exact carried
  | append before after ih ih' =>
      simp only [symbols, keys, List.flatMap_append, List.mem_append, not_or] at without without'
      obtain ⟨_, middle, _, begun, ended, rfl⟩ := run_append ran
      exact run_append_of (ih without.1 without'.1 begun) (ih' without.2 without'.2 ended)
  | orRef key swapped ih =>
      simp only [symbols, keys, List.flatMap_cons, List.mem_append, not_or] at without without'
      rw [run_orRef_eq] at ran ⊢
      rw [Table.find?_map (Key.relabel_injective injective)]
      cases found : table.find? key with
      | none =>
          rw [found] at ran
          exact ih without.2 without'.2 ran
      | some slot =>
          rw [found] at ran
          cases ran
          rfl
  | thenStore key swapped ih =>
      simp only [symbols, keys, List.flatMap_cons, List.mem_append, not_or] at without without'
      obtain ⟨middle, inner, rfl⟩ := run_thenStore ran
      have inner' := ih without.2 without'.2 inner
      rw [run_thenStore_eq, inner', ← Table.push_map]
      rfl

end Swapped

end Script

/-! ## Plans -/

namespace Plan

open Script (Swapped)

variable {graph : Graph} {machine : Target} {plan : Plan} {first second : SymbolId}

section

variable (levels : graph.level first = graph.level second)
include levels

/-- Symbols of one level are written alike. -/
theorem mention_swapped :
    Swapped first second (plan.mention graph first) (plan.mention graph second) := by
  have same : plan.qualifiedName graph first = plan.qualifiedName graph second := by
    unfold qualifiedName
    rw [levels]
  unfold mention
  rw [same]
  exact .compound (by rw [Key.relabel, Equiv.swap_apply_left]) (.same _)

theorem namedType_swapped (naming : Naming) (quals : Qualifiers) (place : Place) :
    Swapped first second (plan.namedType graph naming first quals place)
      (plan.namedType graph naming second quals place) := by
  have relabeled : (Key.type (.named naming first quals)).relabel (Equiv.swap first second) =
      .type (.named naming second quals) := by
    rw [Key.relabel, TypeTree.relabel_named, Equiv.swap_apply_left]
  have mentioned (lead : List Token) : Swapped first second
      (.append (.write lead) (plan.mention graph first))
      (.append (.write lead) (plan.mention graph second)) :=
    .append (.same _) (mention_swapped levels)
  cases naming with
  | typedef => exact .refuse _ _
  | classRef => exact .compound relabeled (.thenStoreIf rfl _ (mentioned _))
  | record | enumeration => exact .orKey relabeled (.thenStoreIf relabeled _ (mentioned _))

theorem within_named_swapped (depth : Nat) (naming : Naming) (quals : Qualifiers) (place : Place) :
    Swapped first second (within graph machine depth (.type (.named naming first quals) place))
      (within graph machine depth (.type (.named naming second quals) place)) := by
  cases depth with
  | zero => exact .refuse _ _
  | succ depth =>
      change Swapped first second (type graph machine (within graph machine depth) _ place)
        (type graph machine (within graph machine depth) _ place)
      have foreign : (TypeTree.named naming second quals).isForeign =
          (TypeTree.named naming first quals).isForeign := rfl
      unfold type
      rw [foreign]
      cases (TypeTree.named naming first quals).isForeign with
      | true => exact .refuse _ _
      | false => exact namedType_swapped levels naming quals place

theorem within_pointer_swapped (depth : Nat) (naming : Naming) (quals outer : Qualifiers)
    (place : Place) :
    Swapped first second
      (within graph machine depth (.type (.layer .pointer (.named naming first quals) outer) place))
      (within graph machine depth
        (.type (.layer .pointer (.named naming second quals) outer) place)) := by
  cases depth with
  | zero => exact .refuse _ _
  | succ depth =>
      change Swapped first second (type graph machine (within graph machine depth) _ place)
        (type graph machine (within graph machine depth) _ place)
      have foreign : (TypeTree.layer .pointer (.named naming second quals) outer).isForeign =
          (TypeTree.layer .pointer (.named naming first quals) outer).isForeign := rfl
      unfold type
      rw [foreign]
      cases (TypeTree.layer .pointer (.named naming first quals) outer).isForeign with
      | true => exact .refuse _ _
      | false =>
          refine .compound ?_ (.append (.same _) (within_named_swapped levels depth naming quals _))
          rw [Key.relabel, TypeTree.relabel_layer, TypeTree.relabel_named, Equiv.swap_apply_left]

theorem parameter_swapped (depth : Nat) (naming : Naming) (quals outer : Qualifiers) :
    Swapped first second
      ((within graph machine depth).parameter graph
        (.value, .layer .pointer (.named naming first quals) outer))
      ((within graph machine depth).parameter graph
        (.value, .layer .pointer (.named naming second quals) outer)) := by
  have dropped (inner : TypeTree) : (TypeTree.layer .pointer inner outer).withoutConst =
      .layer .pointer inner (if outer.isConst then { outer with isConst := false } else outer) := by
    by_cases constant : outer.isConst = true
    · rw [if_pos constant]
      exact if_pos constant
    · rw [if_neg constant]
      exact if_neg constant
  simp only [parameter, TypeTree.passed, TypeTree.isStaticArray, Bool.false_eq_true, if_false,
    dropped]
  exact within_pointer_swapped levels depth naming quals _ .outermost

end

theorem parameters_swapped (before after : List (Passing × TypeTree))
    {param param' : Passing × TypeTree} (isVariadic : Bool)
    (swapped : Swapped first second (plan.parameter graph param) (plan.parameter graph param')) :
    Swapped first second (plan.parameters graph (before ++ param :: after) isVariadic)
      (plan.parameters graph (before ++ param' :: after) isVariadic) := by
  have isEmpty (param : Passing × TypeTree) : (before ++ param :: after).isEmpty = false := by
    simp
  have listed : Swapped first second
      (.concat ((before ++ param :: after).map (plan.parameter graph)))
      (.concat ((before ++ param' :: after).map (plan.parameter graph))) := by
    induction before with
    | nil => exact .append swapped (.same _)
    | cons _ rest ih => exact .append (.same _) (ih fun _ => by simp)
  simp only [parameters, isEmpty]
  exact .append listed (.same _)

/-- Functions that differ in one parameter differ in what is written for it. -/
theorem declaration_swapped (formed : graph.WellFormed) {id id' : SymbolId} {passing : Passing}
    {type type' : TypeId} (differ : graph.DifferInParam id id' passing type type')
    (swapped : Swapped first second (plan.parameter graph (passing, graph.tree type))
      (plan.parameter graph (passing, graph.tree type'))) :
    Swapped first second (plan.declaration graph machine id) (plan.declaration graph machine id') := by
  obtain ⟨symbol, info, other, signature, before, after, quals, quals', stored, stored', typed,
    typed'⟩ := differ
  have source : plan.sourceName graph id = plan.sourceName graph id' := by
    rw [sourceName_eq stored rfl, sourceName_eq stored' rfl]
  have path : plan.functionPath graph info id =
      plan.functionPath graph { info with type := other } id' :=
    functionPath_congr stored stored' rfl rfl rfl rfl rfl rfl
  simp only [declaration, stored, stored', Script.ofExcept, functionName, formed.tree_eq typed,
    formed.tree_eq typed', TypeNode.tree, Signature.convention, List.map_append, List.map_cons]
  refine .append (.same _) ?_
  split
  · rw [path]
    exact .append (.same _) (parameters_swapped _ _ _ swapped)
  · rw [source]
    exact .same _

/-- Siblings of one sort differ in their identifiers, unless they are both destructors. -/
theorem declaration_spells {symbol symbol' outer : Symbol} {parent : SymbolId}
    (stored : graph.symbol first = .ok symbol) (stored' : graph.symbol second = .ok symbol')
    (parents : symbol.parent = symbol'.parent) (inside : symbol.parent = some parent)
    (known : graph.symbol parent = .ok outer) (special : outer.template?.isSome)
    (sorts : symbol.sort = symbol'.sort)
    (role : ∀ info, symbol.sort = .function info → info.role ≠ .destructor) :
    Script.Spells symbol.ident symbol'.ident (plan.declaration graph machine first)
      (plan.declaration graph machine second) := by
  have around := Graph.scopeParent_of_member stored inside known special
  have around' := Graph.scopeParent_of_member stored' (parents ▸ inside) known special
  have source (plain : symbol.template? = none) (plain' : symbol'.template? = none) :
      Script.Spells symbol.ident symbol'.ident (plan.sourceName graph first)
        (plan.sourceName graph second) := by
    rw [sourceName_eq stored plain, sourceName_eq stored' plain']
    exact .source
  simp only [declaration, stored, stored', Script.ofExcept, ← sorts]
  cases sort : symbol.sort with
  | var info =>
      have named := source (by simp [Symbol.template?, sort]) (by simp [Symbol.template?, ← sorts, sort])
      simp only [variableName, around, around', Script.ofExcept]
      split
      · exact .after _ (.after _ (.before named _))
      · exact .refuse _ _
  | function info =>
      have named := source (by simp [Symbol.template?, sort]) (by simp [Symbol.template?, ← sorts, sort])
      have path : Script.Spells symbol.ident symbol'.ident (plan.functionPath graph info first)
          (plan.functionPath graph info second) := by
        simp only [functionPath, around, around', Script.ofExcept, ownName, role info sort, if_false]
        exact .after _ (.after _ (.before named _))
      simp only [functionName]
      split
      · refine .after _ ?_
        split
        · exact .before path _
        · exact named
      · exact .refuse _ _
  | _ => exact .refuse _ _

end Plan

section

variable {graph : Graph} {target : Target} {first second id id' : SymbolId} {text : String}

/-- Siblings of one sort in a specialization have different names. -/
theorem nameFor_siblings_ne (formed : graph.WellFormed) {symbol symbol' outer : Symbol}
    {parent : SymbolId} (stored : graph.symbol first = .ok symbol)
    (stored' : graph.symbol second = .ok symbol') (parents : symbol.parent = symbol'.parent)
    (inside : symbol.parent = some parent) (known : graph.symbol parent = .ok outer)
    (special : outer.template?.isSome) (sorts : symbol.sort = symbol'.sort)
    (role : ∀ info, symbol.sort = .function info → info.role ≠ .destructor)
    (different : symbol.ident ≠ symbol'.ident) (named : nameFor graph target first = .ok text) :
    nameFor graph target second ≠ .ok text := by
  intro named'
  obtain ⟨tokens, last, ran, written⟩ := run_of_nameFor formed named
  obtain ⟨tokens', last', ran', written'⟩ := run_of_nameFor formed named'
  have spells := @Plan.declaration_spells graph target
    (Plan.within graph target (Encoder.depthBound graph)) first second symbol symbol'
    outer parent stored stored' parents inside known special sorts role
  exact different (spells.ident_eq ran ran' (String.ofList_injective (written.symm.trans written')))

/-- Functions that differ in one parameter, which points to one of two symbols of one level, have one
name, unless it asks for the other symbol as well. -/
theorem nameFor_of_pointer (formed : graph.WellFormed)
    (levels : graph.level first = graph.level second) {naming : Naming} {quals outer : Qualifiers}
    {type type' : TypeId} (differ : graph.DifferInParam id id' .value type type')
    (typed : graph.tree type = .layer .pointer (.named naming first quals) outer)
    (typed' : graph.tree type' = .layer .pointer (.named naming second quals) outer)
    (without : second ∉ (nameScript graph target id).symbols)
    (without' : first ∉ (nameScript graph target id').symbols)
    (named : nameFor graph target id = .ok text) : nameFor graph target id' = .ok text := by
  obtain ⟨tokens, last, ran, rfl⟩ := run_of_nameFor formed named
  have part := @Plan.parameter_swapped graph target first second levels
    (Encoder.depthBound graph) naming quals outer
  rw [← typed, ← typed'] at part
  have swapped : Script.Swapped first second (nameScript graph target id)
      (nameScript graph target id') := Plan.declaration_swapped formed differ part
  have ran' := swapped.run without without' ran
  rw [nameFor_eq_run formed (Microsoft.holds_of_differ differ).2]
  exact congrArg (Functor.map _) ran'

end

end LinkName.Itanium
