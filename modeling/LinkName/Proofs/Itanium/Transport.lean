import LinkName.Proofs.Graph.Embedding
import LinkName.Proofs.Itanium.Parts
import LinkName.Proofs.Table

/-!
Scripts carried along by an embedding. The script of an item in the larger graph is that of the
same item in the smaller one, with the symbols in its keys renamed. The embedding of a graph in
itself shows that the script of an item depends on those of its parts alone.
-/
namespace LinkName.Itanium

def Key.relabel (label : SymbolId → SymbolId) : Key → Key
  | .symbol id => .symbol (label id)
  | .type tree => .type (tree.relabel label)
  | .unnamed => .unnamed

theorem Key.relabel_injective {label : SymbolId → SymbolId} (injective : Function.Injective label) :
    Function.Injective (relabel label) := by
  intro key key' same
  cases key <;> cases key' <;> simp [relabel] at same ⊢
  case symbol.symbol => exact injective same
  case type.type => exact TypeTree.relabel_injective injective same

namespace Script

def relabel (label : SymbolId → SymbolId) : Script → Script
  | .write tokens => .write tokens
  | .refuse refusal => .refuse refusal
  | .append first second => .append (first.relabel label) (second.relabel label)
  | .orRef key body => .orRef (key.relabel label) (body.relabel label)
  | .storeThen key body => .storeThen (key.relabel label) (body.relabel label)
  | .thenStore key body => .thenStore (key.relabel label) (body.relabel label)
  | .unlessKnown key body => .unlessKnown (key.relabel label) (body.relabel label)

variable {label : SymbolId → SymbolId}

theorem relabel_id (script : Script) : script.relabel (fun symbol => symbol) = script := by
  have same (key : Key) : key.relabel (fun symbol => symbol) = key := by
    cases key with
    | type tree => exact congrArg Key.type tree.relabel_id
    | _ => rfl
  induction script with
  | write | refuse => rfl
  | append first second before after => rw [relabel, before, after]
  | orRef key body ih | storeThen key body ih | thenStore key body ih | unlessKnown key body ih =>
      rw [relabel, same, ih]

theorem relabel_concat (scripts : List Script) :
    (concat scripts).relabel label = concat (scripts.map (relabel label)) := by
  induction scripts with
  | nil => rfl
  | cons first rest ih => rw [concat, relabel, ih, List.map_cons, concat]

theorem relabel_thenStoreIf (condition : Bool) (key : Key) (body : Script) :
    (thenStoreIf condition key body).relabel label =
      thenStoreIf condition (key.relabel label) (body.relabel label) := by
  unfold thenStoreIf
  split <;> rfl

end Script

section

variable {label : SymbolId → SymbolId} (injective : Function.Injective label)
include injective

/-- A script writes the same however the symbols in its keys are named. -/
theorem Script.run_relabel (script : Script) (table : Table Key) :
    (script.relabel label).run (table.map (Key.relabel label)) =
      (fun ending => (ending.1, ending.2.map (Key.relabel label))) <$> script.run table := by
  induction script generalizing table with
  | write tokens => rfl
  | refuse refusal => rfl
  | append first second before after =>
      rw [relabel, run_append_eq, run_append_eq, before]
      cases first.run table with
      | error refusal => rfl
      | ok ending =>
          simp only [Functor.map, Except.map, Bind.bind, Except.bind, after]
          cases second.run ending.2 <;> rfl
  | orRef key body ih =>
      rw [relabel, run_orRef_eq, run_orRef_eq, Table.find?_map (Key.relabel_injective injective)]
      cases table.find? key with
      | none => exact ih table
      | some slot => rfl
  | storeThen key body ih =>
      rw [relabel, run_storeThen_eq, Table.push_map, ih, run_storeThen_eq]
  | thenStore key body ih =>
      rw [relabel, run_thenStore_eq, run_thenStore_eq, ih]
      cases body.run table with
      | error refusal => rfl
      | ok ending =>
          have stored := Table.push_map (Key.relabel label) ending.2 key
          exact congrArg (fun table => Except.ok (ending.1, table)) stored
  | unlessKnown key body ih =>
      have known : key.relabel label ∈ (table.map (Key.relabel label)).entries ↔
          key ∈ table.entries := List.mem_map_of_injective (Key.relabel_injective injective)
      rw [relabel, run_unlessKnown_eq, run_unlessKnown_eq]
      simp only [known]
      split
      · rfl
      · exact ih table

end

/-! ## Plans -/

namespace Plan

open LinkName.Item (Carries)

variable {graph graph' : Graph} {labels : Relabeling} (machine : Target)
variable (embeds : graph.Embeds graph' labels)
variable (formed : graph.WellFormed) (formed' : graph'.WellFormed)
variable {plan plan' : Plan} {id : SymbolId}
include embeds formed formed'

theorem arguments_relabel {owner : SymbolId} {args : List TemplateArg}
    (carries : Carries labels Script.relabel plan plan' (Item.ofArguments owner args)) :
    plan'.arguments graph' (labels.symbol owner) (TemplateArg.relabelAll labels args) =
      (plan.arguments graph owner args).relabel labels.symbol := by
  induction args with
  | nil => rfl
  | cons first rest ih =>
      cases first with
      | pack inner =>
          cases rest with
          | nil =>
              have written : (TemplateArg.relabelAll labels inner).map
                    (fun arg => plan' (.argument (labels.symbol owner) arg)) =
                  (inner.map fun arg => plan (.argument owner arg)).map
                    (Script.relabel labels.symbol) := by
                rw [TemplateArg.relabelAll_eq_map, List.map_map, List.map_map]
                exact List.map_congr_left fun arg listed =>
                  carries (.argument owner arg) (List.mem_append_left _ (List.mem_map_of_mem listed))
              simp only [TemplateArg.relabelAll, TemplateArg.relabel, arguments, Script.relabel,
                Script.relabel_concat, written]
          | cons second rest =>
              simp only [TemplateArg.relabelAll, TemplateArg.relabel, arguments, Script.relabel,
                embeds.text formed formed']
              rfl
      | _ =>
          have tail := ih carries.tail
          have head := carries.head
          simp only [TemplateArg.relabelAll, TemplateArg.relabel, arguments, Script.relabel, tail,
            LinkName.Item.relabel] at head ⊢
          rw [head]

theorem sourceName_relabel (held : graph.Holds (.symbol id))
    (carries : Carries labels Script.relabel plan plan' (Item.ofName graph id)) :
    plan'.sourceName graph' (labels.symbol id) =
      (plan.sourceName graph id).relabel labels.symbol := by
  obtain ⟨⟨ident, parent, access, sort⟩, stored⟩ := Graph.holds_symbol_iff.mp held
  simp only [sourceName, stored, embeds.symbol_eq_ok stored, Script.ofExcept]
  cases sort with
  | specialization template args =>
      simp only [Item.ofName, stored] at carries
      have inside := arguments_relabel embeds formed formed' carries
      simp only [Symbol.relabel, SymbolSort.relabel, inside]
      rfl
  | _ => rfl

theorem levelName_relabel {level : Level} (held : graph.Holds (.symbol level.name))
    (carries : Carries labels Script.relabel plan plan' (Item.ofLevel graph level)) :
    plan'.levelName graph' (level.relabel labels) =
      (plan.levelName graph level).relabel labels.symbol := by
  have source := sourceName_relabel embeds formed formed' held carries.right
  rcases level with ⟨name, scope, template⟩
  cases scope with
  | none => exact source
  | some outer =>
      have outer := carries.left.head
      simp only [LinkName.Item.relabel] at outer
      cases template <;>
        simp only [levelName, Level.relabel, enclosing, Option.map_some, Option.map_none, source,
          outer] <;> rfl

theorem scopeName_relabel (held : graph.Holds (.symbol id))
    (carries : Carries labels Script.relabel plan plan' (Item.ofMention graph id)) :
    plan'.scopeName graph' (labels.symbol id) =
      (plan.scopeName graph id).relabel labels.symbol := by
  obtain ⟨level, found⟩ := formed.level_eq_ok held
  simp only [Item.ofMention, found] at carries
  have named := levelName_relabel embeds formed formed'
    ((Graph.isLevel_of_level found).holds_name formed held) carries
  simp only [scopeName, found, embeds.level found, Script.ofExcept, named]
  rfl

theorem mention_relabel (held : graph.Holds (.symbol id))
    (carries : Carries labels Script.relabel plan plan' (Item.ofMention graph id)) :
    plan'.mention graph' (labels.symbol id) = (plan.mention graph id).relabel labels.symbol := by
  obtain ⟨level, found⟩ := formed.level_eq_ok held
  simp only [Item.ofMention, found] at carries
  have named := levelName_relabel embeds formed formed'
    ((Graph.isLevel_of_level found).holds_name formed held) carries
  have scope : (level.relabel labels).scope.isSome = level.scope.isSome := Option.isSome_map
  simp only [mention, qualifiedName, found, embeds.level found, Script.ofExcept, named, scope]
  split <;> rfl

theorem parameters_relabel {params : List (Passing × TypeTree)} (isVariadic : Bool)
    (carries : Carries labels Script.relabel plan plan' (Item.ofParameters params)) :
    plan'.parameters graph' (params.map fun param => (param.1, param.2.relabel labels.symbol))
        isVariadic =
      (plan.parameters graph params isVariadic).relabel labels.symbol := by
  have written : params.map (fun param =>
        plan'.parameter graph' (param.1, param.2.relabel labels.symbol)) =
      (params.map (plan.parameter graph)).map (Script.relabel labels.symbol) := by
    rw [List.map_map]
    refine List.map_congr_left fun param listed => ?_
    have inside := carries _ (List.mem_map_of_mem listed)
    simp only [parameter, Function.comp_apply, TypeTree.passed_relabel,
      TypeTree.isStaticArray_relabel, TypeTree.withoutConst_relabel, embeds.spell_text formed formed']
    split
    · rfl
    · exact inside
  simp only [parameters, Script.relabel, Script.relabel_concat, List.map_map, Function.comp_def,
    List.isEmpty_map] at written ⊢
  rw [written]

theorem namedType_relabel {naming : Naming} {symbol : SymbolId} (quals : Qualifiers) (place : Place)
    (held : graph.Holds (.symbol symbol))
    (carries : Carries labels Script.relabel plan plan' (Item.ofMention graph symbol)) :
    plan'.namedType graph' naming (labels.symbol symbol) quals place =
      (plan.namedType graph naming symbol quals place).relabel labels.symbol := by
  have mentioned := mention_relabel embeds formed formed' held carries
  have text := embeds.spell_text formed formed' (.named naming symbol quals)
  simp only [TypeTree.relabel_named] at text
  cases naming <;>
    simp only [namedType, mentioned, text, Script.compound, Script.relabel,
      Script.relabel_thenStoreIf, Key.relabel, TypeTree.relabel_named]

theorem type_relabel {tree : TypeTree} (place : Place)
    (held : ∀ symbol ∈ tree.symbols, graph.Holds (.symbol symbol))
    (carries : Carries labels Script.relabel plan plan' (Item.ofType graph tree)) :
    plan'.type graph' machine (tree.relabel labels.symbol) place =
      (plan.type graph machine tree place).relabel labels.symbol := by
  have text := embeds.spell_text formed formed' tree
  unfold type
  rw [TypeTree.isForeign_relabel, text]
  split
  · rfl
  · cases tree with
    | basic basic quals =>
        simp only [TypeTree.relabel_basic, basicType]
        split <;> rfl
    | layer around inner quals =>
        have inside := carries.head
        simp only [LinkName.Item.relabel] at inside
        simp only [TypeTree.relabel_layer, inside]
        split <;> rfl
    | named naming symbol quals =>
        exact namedType_relabel embeds formed formed' quals place
          (held symbol List.mem_cons_self) carries
    | assocArray key value quals => rfl
    | function result params convention quals =>
        have inside := carries.head
        have listed := parameters_relabel embeds formed formed' convention.variadic carries.tail
        simp only [LinkName.Item.relabel] at inside
        simp only [TypeTree.relabel_function, functionType, TypeTree.returned_relabel, inside,
          listed, Script.compound, Script.relabel, Key.relabel]

theorem variableName_relabel (asArgument : Bool) (symbol : Symbol) (info : VariableInfo)
    (held : graph.Holds (.symbol id))
    (carries : Carries labels Script.relabel plan plan'
      (Item.ofScope graph id ++ Item.ofName graph id)) :
    plan'.variableName graph' machine asArgument (labels.symbol id) (symbol.relabel labels)
        (info.relabel labels) =
      (plan.variableName graph machine asArgument id symbol info).relabel labels.symbol := by
  obtain ⟨scope, found⟩ := formed.scopeParent_eq_ok held
  have source := sourceName_relabel embeds formed formed' held carries.right
  have outer := carries.left
  simp only [Item.ofScope, found] at outer
  have storage : (info.relabel labels).storage = info.storage := rfl
  simp only [variableName, found, embeds.scopeParent found, Script.ofExcept, source, storage,
    embeds.text formed formed']
  split
  · cases scope with
    | none => cases asArgument <;> rfl
    | some scope =>
        have inside := outer.head
        simp only [LinkName.Item.relabel] at inside
        simp only [Option.map_some, inside]
        rfl
  · rfl

theorem functionPath_relabel (info : FunctionInfo) (held : graph.Holds (.symbol id))
    (carries : Carries labels Script.relabel plan plan'
      (Item.ofScope graph id ++ Item.ofName graph id)) :
    plan'.functionPath graph' (info.relabel labels) (labels.symbol id) =
      (plan.functionPath graph info id).relabel labels.symbol := by
  obtain ⟨scope, found⟩ := formed.scopeParent_eq_ok held
  have source := sourceName_relabel embeds formed formed' held carries.right
  have outer := carries.left
  simp only [Item.ofScope, found] at outer
  have own : plan'.ownName graph' (info.relabel labels) (labels.symbol id) =
      (plan.ownName graph info id).relabel labels.symbol := by
    have role : (info.relabel labels).role = info.role := rfl
    simp only [ownName, role, source]
    split <;> rfl
  have const : (info.relabel labels).isConst = info.isConst := rfl
  simp only [functionPath, found, embeds.scopeParent found, Script.ofExcept, const]
  cases scope with
  | none => exact source
  | some scope =>
      have inside := outer.head
      simp only [LinkName.Item.relabel] at inside
      simp only [Option.map_some, inside, own]
      rfl

theorem functionName_relabel {symbol : Symbol} {info : FunctionInfo}
    (stored : graph.symbol id = .ok symbol) (sort : symbol.sort = .function info)
    (carries : Carries labels Script.relabel plan plan' (Item.ofDeclaration graph id)) :
    plan'.functionName graph' machine (labels.symbol id) (info.relabel labels) =
      (plan.functionName graph machine id info).relabel labels.symbol := by
  have held : graph.Holds (.symbol id) := Graph.holds_symbol_iff.mpr ⟨symbol, stored⟩
  have tree := embeds.tree formed formed' (formed.closed _ _ (Graph.mentions_function stored sort))
  have path := functionPath_relabel embeds formed formed' info held carries.left
  have source := sourceName_relabel embeds formed formed' held carries.left.right
  have text := embeds.spell_text formed formed' (graph.tree info.type)
  have type : (info.relabel labels).type = labels.type info.type := rfl
  have signature := carries.right
  rcases symbol with ⟨ident, parent, access, kind⟩
  obtain rfl : kind = .function info := sort
  simp only [Item.ofSignature, stored] at signature
  unfold functionName
  rw [type, tree]
  cases same : graph.tree info.type with
  | function result params convention quals =>
      rw [same] at signature
      have listed := parameters_relabel embeds formed formed' convention.variadic signature
      simp only [TypeTree.relabel_function, path, listed, source]
      split <;> rfl
  | _ =>
      rw [same] at text
      simp only [TypeTree.relabel_basic, TypeTree.relabel_layer, TypeTree.relabel_named,
        TypeTree.relabel_assocArray] at text ⊢
      rw [text]
      rfl

theorem functionArgument_relabel {symbol : Symbol} {info : FunctionInfo}
    (stored : graph.symbol id = .ok symbol) (sort : symbol.sort = .function info)
    (carries : Carries labels Script.relabel plan plan' (Item.ofDeclaration graph id)) :
    plan'.functionArgument graph' machine (labels.symbol id) (info.relabel labels) =
      (plan.functionArgument graph machine id info).relabel labels.symbol := by
  have held : graph.Holds (.symbol id) := Graph.holds_symbol_iff.mpr ⟨symbol, stored⟩
  have named := functionName_relabel machine embeds formed formed' stored sort carries
  obtain ⟨scope, found⟩ := formed.scopeParent_eq_ok held
  have tree := embeds.tree formed formed' (formed.closed _ _ (Graph.mentions_function stored sort))
  have text := embeds.spell_text formed formed' (graph.tree info.type)
  have type : (info.relabel labels).type = labels.type info.type := rfl
  simp only [functionArgument, named, type, tree]
  cases same : graph.tree info.type with
  | function result params convention quals =>
      simp only [TypeTree.relabel_function, found, embeds.scopeParent found, Script.ofExcept,
        Option.isSome_map]
      rfl
  | _ =>
      rw [same] at text
      simp only [TypeTree.relabel_basic, TypeTree.relabel_layer, TypeTree.relabel_named,
        TypeTree.relabel_assocArray] at text ⊢
      rw [text]
      rfl

theorem argument_relabel {owner : SymbolId} {arg : TemplateArg} (held : graph.HoldsArg arg)
    (carries : Carries labels Script.relabel plan plan' (Item.parts graph (.argument owner arg))) :
    plan'.argument graph' machine (labels.symbol owner) (arg.relabel labels) =
      (plan.argument graph machine owner arg).relabel labels.symbol := by
  have refusal : Refusal.argument (graph'.text (labels.symbol owner))
        (graph'.argumentText graph'.text (arg.relabel labels)) =
      Refusal.argument (graph.text owner) (graph.argumentText graph.text arg) := by
    rw [embeds.text formed formed', embeds.argumentText_text formed formed' held]
  cases arg with
  | type id =>
      have inside := carries.head
      simp only [LinkName.Item.relabel] at inside
      simp only [TemplateArg.relabel, argument, embeds.tree formed formed' (held _ rfl), inside]
  | value id number =>
      have inside := carries.head
      simp only [TemplateArg.relabel] at refusal
      simp only [LinkName.Item.relabel] at inside
      simp only [TemplateArg.relabel, argument, refusal, TypeTree.integral?_relabel,
        embeds.tree formed formed' (held _ rfl), inside]
      split <;> rfl
  | typeAlias id | pack args =>
      simp only [TemplateArg.relabel] at refusal
      simp only [TemplateArg.relabel, argument, refusal]
      rfl
  | symbolAlias target =>
      have heldTarget : graph.Holds (.symbol target) := held _ rfl
      obtain ⟨symbol, stored⟩ := Graph.holds_symbol_iff.mp heldTarget
      simp only [TemplateArg.relabel] at refusal
      simp only [TemplateArg.relabel, argument, refusal, stored, embeds.symbol_eq_ok stored,
        Script.ofExcept]
      have sorted : (symbol.relabel labels).sort = symbol.sort.relabel labels := rfl
      rw [sorted]
      cases sort : symbol.sort with
      | function info =>
          exact functionArgument_relabel machine embeds formed formed' stored sort carries.left
      | var info =>
          have named := variableName_relabel machine embeds formed formed' true symbol info heldTarget
            carries.left.left
          simp only [SymbolSort.relabel, named]
          rfl
      | template member =>
          cases member with
          | none => rfl
          | some member => exact mention_relabel embeds formed formed' heldTarget carries.right
      | _ => rfl

theorem item_relabel {item : Item} (held : item.Held graph)
    (carries : Carries labels Script.relabel plan plan' (Item.parts graph item)) :
    plan'.item graph' machine (item.relabel labels) =
      (plan.item graph machine item).relabel labels.symbol := by
  cases item with
  | scope id => exact scopeName_relabel embeds formed formed' held carries
  | argument owner arg => exact argument_relabel machine embeds formed formed' held.2 carries
  | type tree place => exact type_relabel machine embeds formed formed' place held carries

theorem declaration_relabel (held : graph.Holds (.symbol id))
    (carries : Carries labels Script.relabel plan plan' (Item.ofDeclaration graph id)) :
    plan'.declaration graph' machine (labels.symbol id) =
      (plan.declaration graph machine id).relabel labels.symbol := by
  obtain ⟨symbol, stored⟩ := Graph.holds_symbol_iff.mp held
  simp only [declaration, stored, embeds.symbol_eq_ok stored, Script.ofExcept,
    embeds.text formed formed']
  have sorted : (symbol.relabel labels).sort = symbol.sort.relabel labels := rfl
  rw [sorted]
  cases sort : symbol.sort with
  | function info => exact functionName_relabel machine embeds formed formed' stored sort carries
  | var info =>
      exact variableName_relabel machine embeds formed formed' false symbol info held carries.left
  | _ => rfl

theorem within_relabel (depth : Nat) {item : Item} (held : item.Held graph) :
    within graph' machine depth (item.relabel labels) =
      (within graph machine depth item).relabel labels.symbol := by
  induction depth generalizing item with
  | zero => rfl
  | succ depth ih =>
      exact item_relabel machine embeds formed formed' held fun part listed =>
        ih (Item.below_parts formed formed.order held part listed).1

end Plan

end LinkName.Itanium
