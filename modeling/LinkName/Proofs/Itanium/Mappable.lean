import LinkName.Naming
import LinkName.Proofs.Graph.Mappable
import LinkName.Proofs.Itanium.Refusals
import LinkName.Proofs.Overloads

/-!
What the Itanium scheme can name. A script is written in full exactly if what it stands for is
mappable, item by item; and since substitution never decides whether a name exists, a declaration has
a name exactly if it is mappable.
-/
namespace LinkName

namespace Itanium

namespace Script

theorem succeeds_concat {scripts : List Script} :
    (concat scripts).Succeeds ↔ ∀ script ∈ scripts, script.Succeeds := by
  induction scripts with
  | nil => simp [concat, succeeds_write]
  | cons first rest ih => rw [concat, succeeds_append, ih, List.forall_mem_cons]

theorem succeeds_wrap {before after : List Token} {body : Script} :
    (append (.write before) (.append body (.write after))).Succeeds ↔ body.Succeeds := by
  simp only [succeeds_append, succeeds_write, true_and, and_true]

end Script

open Script (succeeds_append succeeds_concat succeeds_write succeeds_wrap succeeds_thenStoreIf
  not_succeeds_refuse)

/-- What an item stands for has a counterpart in C++. -/
def Item.Mappable (graph : Graph) : Item → Prop
  | .scope id => graph.MappableScope id
  | .argument _ arg => graph.MappableArgument arg
  | .type tree _ => tree.Mappable graph.MappableScope

namespace Plan

variable {graph : Graph} {machine : Target} {plan : Plan} {id : SymbolId} {symbol : Symbol}

/-- The plan can write exactly the mappable ones of the parts. -/
def WritesMappable (graph : Graph) (plan : Plan) (parts : List Item) : Prop :=
  ∀ part ∈ parts, (plan part).Succeeds ↔ Item.Mappable graph part

namespace WritesMappable

variable {parts others : List Item}

theorem left (writes : WritesMappable graph plan (parts ++ others)) :
    WritesMappable graph plan parts :=
  fun part listed => writes part (List.mem_append_left _ listed)

theorem right (writes : WritesMappable graph plan (parts ++ others)) :
    WritesMappable graph plan others :=
  fun part listed => writes part (List.mem_append_right _ listed)

end WritesMappable

/-! ## Names -/

theorem succeeds_arguments {owner : SymbolId} {args : List TemplateArg}
    (writes : WritesMappable graph plan (LinkName.Item.ofArguments owner args)) :
    (plan.arguments graph owner args).Succeeds ↔ graph.MappableArguments args := by
  induction args with
  | nil => exact iff_of_true (succeeds_write _) .nil
  | cons first rest ih =>
      cases first with
      | pack inner =>
          cases rest with
          | nil =>
              have each := writes.left
              simp only [arguments, succeeds_wrap, succeeds_concat, List.forall_mem_map]
              constructor
              · exact fun written => .pack fun arg listed =>
                  (each _ (List.mem_map_of_mem listed)).mp (written arg listed)
              · intro mappable arg listed
                refine (each _ (List.mem_map_of_mem listed)).mpr ?_
                cases mappable with
                | pack each => exact each arg listed
                | cons head => cases head
          | cons second rest =>
              refine iff_of_false (not_succeeds_refuse _) ?_
              rintro (_ | _ | ⟨⟨⟩, _⟩)
      | _ =>
          obtain ⟨head, tail⟩ := List.forall_mem_cons.mp writes
          simp only [arguments, succeeds_append, ih tail, head]
          constructor
          · exact fun both => .cons both.1 both.2
          · intro mappable
            cases mappable with
            | cons head tail => exact ⟨head, tail⟩

theorem succeeds_sourceName (stored : graph.symbol id = .ok symbol)
    (writes : WritesMappable graph plan (LinkName.Item.ofName graph id)) :
    (plan.sourceName graph id).Succeeds ↔
      ∀ template args, symbol.sort = .specialization template args →
        graph.MappableArguments args := by
  rcases symbol with ⟨ident, parent, access, sort⟩
  simp only [LinkName.Item.ofName, stored] at writes
  simp only [sourceName, stored, Script.ofExcept]
  cases sort with
  | specialization template args =>
      have name : (generalName template ident).Succeeds := succeeds_write _
      simp only [succeeds_append, succeeds_write, name, true_and, and_true,
        succeeds_arguments writes]
      exact ⟨fun mappable _ _ same => by cases same; exact mappable,
        fun mappable => mappable _ _ rfl⟩
  | _ => exact iff_of_true (succeeds_write _) (by simp)

theorem succeeds_levelName {level : Level} (known : graph.symbol level.name = .ok symbol)
    (writes : WritesMappable graph plan (Item.ofLevel graph level)) :
    (plan.levelName graph level).Succeeds ↔
      (∀ template args, symbol.sort = .specialization template args →
        graph.MappableArguments args) ∧
      ∀ outer, level.scope = some outer → graph.MappableScope outer := by
  have source := succeeds_sourceName known writes.right
  unfold levelName
  cases scope : level.scope with
  | none => simp [source]
  | some outer =>
      have outside : (plan (.scope outer)).Succeeds ↔ graph.MappableScope outer :=
        writes.left _ (by simp [scope])
      have enclosed : (enclosing plan level outer).Succeeds ↔ (plan (.scope outer)).Succeeds := by
        unfold enclosing
        cases level.template <;> exact Iff.rfl
      simp only [succeeds_append, enclosed, outside, source, Option.some.injEq, forall_eq', and_comm]

section

variable (formed : graph.WellFormed) (proper : graph.ProperTemplates)
include formed proper

theorem succeeds_level (held : graph.Holds (.symbol id)) {level : Level}
    (found : graph.level id = .ok level)
    (writes : WritesMappable graph plan (Item.ofMention graph id)) :
    (plan.levelName graph level).Succeeds ↔ graph.MappableScope id := by
  obtain ⟨symbol, stored⟩ := Graph.holds_symbol_iff.mp held
  obtain ⟨named, known⟩ :=
    Graph.holds_symbol_iff.mp ((Graph.isLevel_of_level found).holds_name formed held)
  simp only [Item.ofMention, found] at writes
  rw [succeeds_levelName known writes, proper.mappableScope_level_iff stored found known]

theorem succeeds_scopeName (held : graph.Holds (.symbol id))
    (writes : WritesMappable graph plan (Item.ofMention graph id)) :
    (plan.scopeName graph id).Succeeds ↔ graph.MappableScope id := by
  obtain ⟨level, found⟩ := formed.level_eq_ok held
  rw [← succeeds_level formed proper held found writes]
  simp only [scopeName, found, Script.ofExcept]
  exact Iff.rfl

theorem succeeds_mention (held : graph.Holds (.symbol id))
    (writes : WritesMappable graph plan (Item.ofMention graph id)) :
    (plan.mention graph id).Succeeds ↔ graph.MappableScope id := by
  obtain ⟨level, found⟩ := formed.level_eq_ok held
  rw [← succeeds_level formed proper held found writes]
  show (plan.qualifiedName graph id).Succeeds ↔ _
  simp only [qualifiedName, found, Script.ofExcept]
  split
  · exact succeeds_wrap
  · exact Iff.rfl

end

/-! ## Types -/

theorem succeeds_parameter {param : Passing × TypeTree}
    (writes : (plan (.type (TypeTree.passed param).withoutConst .outermost)).Succeeds ↔
      (TypeTree.passed param).withoutConst.Mappable graph.MappableScope) :
    (plan.parameter graph param).Succeeds ↔
      param.2.Mappable graph.MappableScope ∧ TypeTree.copiesArray param = false := by
  rw [TypeTree.mappable_withoutConst_iff, TypeTree.mappable_passed_iff] at writes
  unfold parameter TypeTree.copiesArray
  cases (TypeTree.passed param).isStaticArray with
  | true => exact iff_of_false (not_succeeds_refuse _) (by simp)
  | false => simp [writes]

theorem succeeds_parameters {params : List (Passing × TypeTree)} {isVariadic : Bool}
    (writes : WritesMappable graph plan (Item.ofParameters params)) :
    (plan.parameters graph params isVariadic).Succeeds ↔
      ∀ param ∈ params, param.2.Mappable graph.MappableScope ∧
        TypeTree.copiesArray param = false := by
  simp only [parameters, succeeds_append, succeeds_write, and_true, succeeds_concat,
    List.forall_mem_map]
  exact forall₂_congr fun param listed =>
    succeeds_parameter (writes _ (List.mem_map_of_mem listed))

theorem succeeds_functionType {result : TypeTree} {params : List (Passing × TypeTree)}
    {convention : Convention} {quals : Qualifiers}
    (native : (TypeTree.function result params convention quals).isForeign = false)
    (writes : WritesMappable graph plan (Item.ofType graph (.function result params convention quals))) :
    (plan.functionType graph result params convention).Succeeds ↔
      (TypeTree.function result params convention quals).Mappable graph.MappableScope := by
  obtain ⟨returned, listed⟩ := List.forall_mem_cons.mp writes
  rw [Item.Mappable, TypeTree.mappable_returned_iff] at returned
  simp only [functionType, succeeds_append, succeeds_write, true_and, and_true, returned,
    succeeds_parameters listed]
  constructor
  · rintro ⟨result, each⟩
    exact .function native result (fun param listed => (each param listed).1)
      fun param listed => (each param listed).2
  · rintro (_ | _ | _ | ⟨-, result, each, passed⟩)
    exact ⟨result, fun param listed => ⟨each param listed, passed param listed⟩⟩

theorem succeeds_namedType (formed : graph.WellFormed) (proper : graph.ProperTemplates)
    {naming : Naming} {quals : Qualifiers} {place : Place} (held : graph.Holds (.symbol id))
    (native : (TypeTree.named naming id quals).isForeign = false)
    (writes : WritesMappable graph plan (Item.ofMention graph id)) :
    (plan.namedType graph naming id quals place).Succeeds ↔
      (TypeTree.named naming id quals).Mappable graph.MappableScope := by
  have mentioned := succeeds_mention formed proper held writes
  have mappable (spelled : naming ≠ .typedef) : graph.MappableScope id ↔
      (TypeTree.named naming id quals).Mappable graph.MappableScope :=
    ⟨.named native spelled, by rintro (_ | _ | ⟨-, -, scope⟩); exact scope⟩
  cases naming with
  | typedef =>
      refine iff_of_false (not_succeeds_refuse _) ?_
      rintro (_ | _ | ⟨-, spelled, -⟩)
      exact spelled rfl
  | record | enumeration base | classRef =>
      rw [← mappable nofun, ← mentioned]
      show (Script.thenStoreIf _ _ _).Succeeds ↔ _
      rw [succeeds_thenStoreIf, succeeds_append, and_iff_right (succeeds_write _)]

theorem succeeds_type (formed : graph.WellFormed) (proper : graph.ProperTemplates) {tree : TypeTree}
    {place : Place} (held : ∀ symbol ∈ tree.symbols, graph.Holds (.symbol symbol))
    (writes : WritesMappable graph plan (Item.ofType graph tree)) :
    (plan.type graph machine tree place).Succeeds ↔ tree.Mappable graph.MappableScope := by
  unfold type
  cases native : tree.isForeign with
  | true => exact iff_of_false (not_succeeds_refuse _) (TypeTree.not_mappable_of_isForeign native)
  | false =>
      simp only [Bool.false_eq_true, if_false]
      cases tree with
      | basic basic quals =>
          refine iff_of_true ?_ (.basic native)
          show (basicType machine basic quals).Succeeds
          unfold basicType
          split <;> exact succeeds_write _
      | layer around inner quals =>
          have inside : (plan (.type inner .nested)).Succeeds ↔ _ := writes _ List.mem_cons_self
          dsimp only
          cases leads : around.itaniumLead? quals.isConst with
          | none =>
              refine iff_of_false (not_succeeds_refuse _) ?_
              rintro (_ | ⟨-, spelled, -⟩)
              cases around <;> simp_all [Layer.itaniumLead?]
          | some lead =>
              show (Script.append _ _).Succeeds ↔ _
              rw [succeeds_append, and_iff_right (succeeds_write _), inside]
              constructor
              · refine .layer native ⟨?_, ?_⟩ <;> rintro rfl <;> cases leads
              · rintro (_ | ⟨-, -, inner⟩)
                exact inner
      | named naming symbol quals =>
          exact succeeds_namedType formed proper (held symbol List.mem_cons_self) native writes
      | assocArray key value quals => exact iff_of_false (not_succeeds_refuse _) (by rintro ⟨⟩)
      | function result params convention quals => exact succeeds_functionType native writes

/-! ## Declarations -/

section

variable (stored : graph.symbol id = .ok symbol)
include stored

/-- The scope of anything but a specialization is mappable if the one around it is. -/
theorem mappableScope_iff_outside {scope : Option SymbolId} (plain : symbol.template? = none)
    (found : graph.scopeParent id = .ok scope)
    (writes : WritesMappable graph plan (Item.ofScope graph id)) :
    graph.MappableScope id ↔ ∀ outer, scope = some outer → (plan (.scope outer)).Succeeds := by
  rw [Graph.mappableScope_iff stored found, and_iff_right]
  · simp only [Item.ofScope, found] at writes
    exact forall₂_congr fun outer same => (writes (.scope outer) (by simp [same])).symm
  · intro template args sort
    simp [Symbol.template?, sort] at plain

theorem succeeds_variableName (formed : graph.WellFormed) {asArgument : Bool} {info : VariableInfo}
    (sort : symbol.sort = .var info) (writes : WritesMappable graph plan (Item.ofScope graph id)) :
    (plan.variableName graph machine asArgument id symbol info).Succeeds ↔
      info.storage.isLinkable = true ∧ graph.MappableScope id := by
  have plain : symbol.template? = none := by simp [Symbol.template?, sort]
  have source : (plan.sourceName graph id).Succeeds := sourceName_eq stored plain ▸ succeeds_write _
  obtain ⟨scope, found⟩ := formed.scopeParent_eq_ok (Graph.holds_symbol_iff.mpr ⟨symbol, stored⟩)
  rw [mappableScope_iff_outside stored plain found writes]
  unfold variableName
  cases info.storage.isLinkable with
  | false => exact iff_of_false (not_succeeds_refuse _) (by simp)
  | true =>
      simp only [found, Script.ofExcept, if_true, true_and]
      cases scope with
      | some outer => simp [succeeds_append, succeeds_write, source]
      | none =>
          refine iff_of_true ?_ (by simp)
          dsimp only
          split
          · exact succeeds_append.mpr ⟨succeeds_write _, source⟩
          · exact succeeds_write _

theorem succeeds_functionPath (formed : graph.WellFormed) {info : FunctionInfo}
    (sort : symbol.sort = .function info) (writes : WritesMappable graph plan (Item.ofScope graph id)) :
    (plan.functionPath graph info id).Succeeds ↔ graph.MappableScope id := by
  have plain : symbol.template? = none := by simp [Symbol.template?, sort]
  have source : (plan.sourceName graph id).Succeeds := sourceName_eq stored plain ▸ succeeds_write _
  obtain ⟨scope, found⟩ := formed.scopeParent_eq_ok (Graph.holds_symbol_iff.mpr ⟨symbol, stored⟩)
  rw [mappableScope_iff_outside stored plain found writes]
  simp only [functionPath, found, Script.ofExcept]
  cases scope with
  | none => exact iff_of_true source (by simp)
  | some outer =>
      have own : (plan.ownName graph info id).Succeeds := by
        unfold ownName
        split
        · exact succeeds_write _
        · exact source
      simp [succeeds_append, succeeds_write, own]

theorem succeeds_functionName (formed : graph.WellFormed) {info : FunctionInfo}
    (sort : symbol.sort = .function info)
    (writes : WritesMappable graph plan (Item.ofDeclaration graph id)) :
    (plan.functionName graph machine id info).Succeeds ↔ graph.MappableDeclaration id := by
  obtain ⟨⟨form, quals⟩, typed⟩ :=
    Graph.holds_type_iff.mp (formed.closed _ _ (Graph.mentions_function stored sort))
  have tree := formed.tree_eq typed
  cases form with
  | function signature =>
      have source : (plan.sourceName graph id).Succeeds :=
        sourceName_eq stored (by simp [Symbol.template?, sort]) ▸ succeeds_write _
      have path := succeeds_functionPath stored formed sort writes.left.left
      have listed := writes.right
      rcases symbol with ⟨ident, parent, access, kind⟩
      obtain rfl : kind = .function info := sort
      simp only [Item.ofSignature, stored, tree, TypeNode.tree] at listed
      have parameters : (plan.parameters graph _ signature.variadic).Succeeds ↔ _ :=
        succeeds_parameters listed
      rw [Graph.mappableDeclaration_function_iff stored rfl typed,
        Graph.mappable_params_iff formed typed fun param listed =>
          Graph.mappableType_iff formed (formed.closed _ _ (Graph.mentions_param typed listed)),
        ← parameters, ← path]
      simp only [functionName, tree, TypeNode.tree, Signature.convention, succeeds_append,
        succeeds_write, true_and]
      split
      · next cpp => simp only [cpp, forall_const, succeeds_append]
      · next other => exact iff_of_true source fun cpp => absurd cpp other
  | _ =>
      refine iff_of_false ?_ fun mappable => ?_
      · simp only [functionName, tree, TypeNode.tree]
        exact not_succeeds_refuse _
      · rcases mappable.declares stored with ⟨_, sort'⟩ | ⟨_, _, _, sort', typed'⟩
        · cases sort.symm.trans sort'
        · cases sort.symm.trans sort'
          cases typed.symm.trans typed'

theorem succeeds_functionArgument (formed : graph.WellFormed) {info : FunctionInfo}
    (sort : symbol.sort = .function info)
    (writes : WritesMappable graph plan (Item.ofDeclaration graph id)) :
    (plan.functionArgument graph machine id info).Succeeds ↔ graph.MappableDeclaration id := by
  have name : (plan.functionName graph machine id info).Succeeds ↔ _ :=
    succeeds_functionName stored formed sort writes
  obtain ⟨scope, found⟩ := formed.scopeParent_eq_ok (Graph.holds_symbol_iff.mpr ⟨symbol, stored⟩)
  rw [← name]
  unfold functionArgument functionName
  split
  · simp only [found, Script.ofExcept, succeeds_wrap]
  · exact Iff.rfl

/-- A variable or a function can be written if it is mappable, and nothing else can. -/
theorem succeeds_declaration (formed : graph.WellFormed)
    (writes : WritesMappable graph plan (Item.ofDeclaration graph id)) :
    (plan.declaration graph machine id).Succeeds ↔ graph.MappableDeclaration id := by
  simp only [declaration, stored, Script.ofExcept]
  cases sort : symbol.sort with
  | var info =>
      rw [Graph.mappableDeclaration_var_iff stored sort]
      exact succeeds_variableName stored formed sort writes.left.left
  | function info => exact succeeds_functionName stored formed sort writes
  | _ =>
      refine iff_of_false (not_succeeds_refuse _) fun mappable => ?_
      rcases mappable.declares stored with ⟨_, sort'⟩ | ⟨_, _, _, sort', -⟩ <;>
        cases sort.symm.trans sort'

end

/-! ## Arguments -/

theorem mappable_alias_iff (stored : graph.symbol id = .ok symbol) :
    graph.MappableArgument (.symbolAlias id) ↔ graph.MappableDeclaration id ∨
      (∃ member, symbol.sort = .template (some member)) ∧ graph.MappableScope id := by
  constructor
  · rintro (_ | _ | mappable | ⟨stored', sort, scope⟩)
    · exact .inl mappable
    · cases stored.symm.trans stored'
      exact .inr ⟨⟨_, sort⟩, scope⟩
  · rintro (mappable | ⟨⟨member, sort⟩, scope⟩)
    · exact .declaration mappable
    · exact .template stored sort scope

theorem succeeds_argument (formed : graph.WellFormed) (proper : graph.ProperTemplates)
    {owner : SymbolId} {arg : TemplateArg} (held : graph.HoldsArg arg)
    (writes : WritesMappable graph plan (Item.parts graph (.argument owner arg))) :
    (plan.argument graph machine owner arg).Succeeds ↔ graph.MappableArgument arg := by
  have typed {type : TypeId} (held : graph.Holds (.type type))
      (writes : WritesMappable graph plan [.type (graph.tree type) .nested]) :
      (plan (.type (graph.tree type) .nested)).Succeeds ↔ graph.MappableType type :=
    (writes _ List.mem_cons_self).trans (Graph.mappableType_iff formed held).symm
  cases arg with
  | type type =>
      refine (typed (held _ rfl) writes).trans ⟨.type, ?_⟩
      rintro ⟨mappable⟩
      exact mappable
  | value type number =>
      have mappable := typed (held _ rfl) writes
      obtain ⟨node, stored⟩ := Graph.holds_type_iff.mp (held _ rfl)
      have integral : (graph.tree type).integral? = node.form.integral? := by
        rw [formed.tree_eq stored, TypeNode.integral?_tree]
      simp only [argument, integral]
      cases whole : node.form.integral? with
      | none =>
          refine iff_of_false (not_succeeds_refuse _) ?_
          rintro (_ | ⟨stored', integral, -⟩)
          cases stored.symm.trans stored'
          simp [whole] at integral
      | some basic =>
          dsimp only
          rw [succeeds_wrap, mappable]
          constructor
          · exact .value stored (by simp [whole])
          · rintro (_ | ⟨-, -, mappable⟩)
            exact mappable
  | typeAlias type => exact iff_of_false (not_succeeds_refuse _) (by rintro ⟨⟩)
  | pack args => exact iff_of_false (not_succeeds_refuse _) (by rintro ⟨⟩)
  | symbolAlias target =>
      obtain ⟨symbol, stored⟩ := Graph.holds_symbol_iff.mp (held _ rfl)
      have undeclared (other : ∀ info, symbol.sort ≠ .var info)
          (another : ∀ info, symbol.sort ≠ .function info) : ¬ graph.MappableDeclaration target := by
        intro mappable
        rcases mappable.declares stored with ⟨info, sort⟩ | ⟨info, _, _, sort, -⟩
        · exact other info sort
        · exact another info sort
      rw [mappable_alias_iff stored]
      simp only [argument, stored, Script.ofExcept]
      cases sort : symbol.sort with
      | function info =>
          simpa [sort] using succeeds_functionArgument stored formed sort writes.left
      | var info =>
          simpa [sort, succeeds_wrap, Graph.mappableDeclaration_var_iff stored sort] using
            succeeds_variableName stored formed sort writes.left.left.left
      | template member =>
          have none := undeclared (by simp [sort]) (by simp [sort])
          cases member with
          | none => exact iff_of_false (not_succeeds_refuse _) (by simp [none])
          | some member =>
              simpa [sort, none] using succeeds_mention formed proper (held _ rfl) writes.right
      | _ =>
          have none := undeclared (by simp [sort]) (by simp [sort])
          exact iff_of_false (not_succeeds_refuse _) (by simp [none])

/-! ## Whole names -/

/-- An item can be written in full exactly if it is mappable. -/
theorem succeeds_settled (formed : graph.WellFormed) (proper : graph.ProperTemplates)
    (order : graph.Order) (machine : Target) {item : Item} (held : item.Held graph) :
    (settled order machine item).Succeeds ↔ Item.Mappable graph item := by
  refine LinkName.Item.induction (Item.descends formed) order (motive := fun item =>
    (settled order machine item).Succeeds ↔ Item.Mappable graph item) ?_ held
  intro item held writes
  rw [settled_eq formed order held]
  cases item with
  | scope id => exact succeeds_scopeName formed proper held writes
  | argument owner arg => exact succeeds_argument formed proper held.2 writes
  | type tree place => exact succeeds_type formed proper held writes

end Plan

theorem exists_nameFor_iff {graph : Graph} (formed : graph.WellFormed)
    (proper : graph.ProperTemplates) (target : Target) {id : SymbolId}
    (held : graph.Holds (.symbol id)) :
    (∃ text, nameFor graph target id = .ok text) ↔ graph.MappableDeclaration id := by
  have order := formed.order
  obtain ⟨symbol, stored⟩ := Graph.holds_symbol_iff.mp held
  have written : (Plan.declaration graph target
      (Plan.settled order target) id).Succeeds ↔ _ :=
    Plan.succeeds_declaration stored formed fun part listed =>
      Plan.succeeds_settled formed proper order _
        (Item.below_ofDeclaration formed order id part listed).1
  have ends := Plan.declaration_steady target formed proper order id Table.unbounded
    fun _ listed => absurd listed List.not_mem_nil
  rw [← written]
  unfold nameFor name
  rw [show (Table.unbounded : Table Component) = { limit := none } from rfl,
    outcome_eq_run formed order _ held]
  simp only [Script.Succeeds]
  rw [show (Table.unbounded : Table Key) = { limit := none } from rfl] at ends
  generalize Script.run _ { limit := none } = run, Script.full _ = full at ends ⊢
  cases ends with
  | refused refusal => exact iff_of_false (by rintro ⟨_, ⟨⟩⟩) (by rintro ⟨_, ⟨⟩⟩)
  | written => exact iff_of_true ⟨_, rfl⟩ ⟨_, rfl⟩

/-- A symbol has a name exactly if it is a mappable declaration. For a function with C++ linkage that
is: the scopes around it are mappable and so are its parameters, none of them an array by value. -/
theorem nameFor_iff_mappable {graph : Graph} (built : graph.Built)
    (general : graph.SpecializesTemplates) (apart : graph.TemplatesApart) (target : Target)
    {id : SymbolId} (held : graph.Holds (.symbol id)) :
    ((∃ text, nameFor graph target id = .ok text) ↔ graph.MappableDeclaration id) ∧
      ∀ symbol info signature, graph.IsCppFunction id symbol info signature →
        ((∃ text, nameFor graph target id = .ok text) ↔ graph.MappableScope id ∧
          (∀ param ∈ signature.params, graph.MappableType param.type) ∧
            ∀ param ∈ signature.params, ¬ graph.CopiesArray param) := by
  have proper : graph.ProperTemplates := ⟨built.sound.copies, general, apart⟩
  have named := exists_nameFor_iff built.wellFormed proper target held
  refine ⟨named, fun symbol info signature declared => ?_⟩
  obtain ⟨quals, typed⟩ := declared.typed
  rw [named, Graph.mappableDeclaration_function_iff declared.stored declared.sort typed]
  simp only [declared.linkage, forall_const]

/-- Two functions that take specializations. One is of a function and a pack, the other of a type
that C++ does not have. -/
def lockers : Graph where
  symbols :=
    [{ ident := "app", sort := .moduleScope },
      { ident := "ping", parent := some ⟨0⟩, sort := .function { type := ⟨1⟩ } },
      { ident := "Locker", parent := some ⟨0⟩, sort := .template none },
      { ident := "Locker", parent := some ⟨0⟩,
        sort := .specialization ⟨2⟩ [.symbolAlias ⟨1⟩, .pack [.type ⟨2⟩, .value ⟨2⟩ 7]] },
      { ident := "Locker", parent := some ⟨0⟩, sort := .specialization ⟨2⟩ [.type ⟨3⟩] },
      { ident := "load", parent := some ⟨0⟩, sort := .function { type := ⟨7⟩ } },
      { ident := "stow", parent := some ⟨0⟩, sort := .function { type := ⟨8⟩ } }]
  types :=
    [{ form := .basic .void }, { form := .function { result := ⟨0⟩, params := [] } },
      { form := .basic .int32 }, { form := .basic .int32, quals := { isImmutable := true } },
      { form := .record ⟨3⟩ }, { form := .record ⟨4⟩ }, { form := .pointer ⟨5⟩ },
      { form := .function { result := ⟨0⟩, params := [{ type := ⟨4⟩ }] } },
      { form := .function { result := ⟨0⟩, params := [{ type := ⟨6⟩ }] } }]

theorem lockers_built : lockers.Built :=
  Graph.built_of_takeAll?
    [.symbol { ident := "app", sort := .moduleScope }, .type { form := .basic .void },
      .type { form := .function { result := ⟨0⟩, params := [] } }, .type { form := .basic .int32 },
      .type { form := .basic .int32, quals := { isImmutable := true } },
      .symbol { ident := "ping", parent := some ⟨0⟩, sort := .function { type := ⟨1⟩ } },
      .symbol { ident := "Locker", parent := some ⟨0⟩, sort := .template none },
      .specialization ⟨2⟩ [.symbolAlias ⟨1⟩, .pack [.type ⟨2⟩, .value ⟨2⟩ 7]],
      .specialization ⟨2⟩ [.type ⟨3⟩], .type { form := .record ⟨3⟩ },
      .type { form := .record ⟨4⟩ }, .type { form := .pointer ⟨5⟩ },
      .type { form := .function { result := ⟨0⟩, params := [{ type := ⟨4⟩ }] } },
      .type { form := .function { result := ⟨0⟩, params := [{ type := ⟨6⟩ }] } },
      .symbol { ident := "load", parent := some ⟨0⟩, sort := .function { type := ⟨7⟩ } },
      .symbol { ident := "stow", parent := some ⟨0⟩, sort := .function { type := ⟨8⟩ } }] rfl

theorem lockers_specializesTemplates : lockers.SpecializesTemplates := by
  rintro ⟨_ | _ | _ | _ | _ | _ | _ | index⟩ symbol template stored special <;> cases stored <;>
    cases special <;> exact ⟨_, none, rfl, rfl⟩

theorem lockers_templatesApart : lockers.TemplatesApart := by
  rintro ⟨_ | _ | _ | _ | _ | _ | _ | index⟩ symbol member parent outer stored sort inside known <;>
    cases stored <;> cases sort
  cases inside
  cases known
  rfl

theorem nameFor_iff_mappable_lockers :
    nameFor lockers .itanium64 ⟨5⟩ = .ok "_Z4load6LockerIL_Z4pingvEIiLi7EEE" ∧
      lockers.MappableDeclaration ⟨5⟩ ∧
      (nameFor lockers .itanium64 ⟨6⟩).isOk = false ∧ ¬ lockers.MappableDeclaration ⟨6⟩ := by
  have iff {id : SymbolId} (held : lockers.Holds (.symbol id)) :=
    (nameFor_iff_mappable lockers_built lockers_specializesTemplates lockers_templatesApart .itanium64
      held).1
  have load : nameFor lockers .itanium64 ⟨5⟩ = .ok "_Z4load6LockerIL_Z4pingvEIiLi7EEE" := by
    decide +kernel
  have stow : (nameFor lockers .itanium64 ⟨6⟩).isOk = false := by decide +kernel
  refine ⟨load, (iff (by decide)).mp ⟨_, load⟩, stow, fun mappable => ?_⟩
  obtain ⟨text, named⟩ := (iff (by decide)).mpr mappable
  rw [named] at stow
  cases stow

end Itanium

end LinkName
