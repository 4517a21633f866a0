import LinkName.Proofs.Microsoft.Parts

/-!
Scripts carried along by an embedding. The script of an item in the larger graph is that of the
same item in the smaller one, with the symbols in recorded types renamed. The embedding of a graph
in itself shows that the script of an item depends on those of its parts alone.
-/
namespace LinkName.Microsoft

namespace Script

def relabel (label : SymbolId → SymbolId) : Script → Script
  | .write tokens => .write tokens
  | .refuse refusal => .refuse refusal
  | .append first second => .append (first.relabel label) (second.relabel label)
  | .level spelledOut body => .level spelledOut (body.relabel label)
  | .orTypeRef tree body => .orTypeRef (tree.relabel label) (body.relabel label)
  | .typeRefAfter tree lead body => .typeRefAfter (tree.relabel label) lead (body.relabel label)

variable {label : SymbolId → SymbolId}

theorem relabel_id (script : Script) : script.relabel (fun symbol => symbol) = script := by
  induction script with
  | write | refuse => rfl
  | append first second before after => rw [relabel, before, after]
  | level spelledOut body ih => rw [relabel, ih]
  | orTypeRef tree body ih | typeRefAfter tree lead body ih =>
      rw [relabel, TypeTree.relabel_id, ih]

theorem relabel_concat (scripts : List Script) :
    (concat scripts).relabel label = concat (scripts.map (relabel label)) := by
  induction scripts with
  | nil => rfl
  | cons first rest ih => rw [concat, relabel, ih, List.map_cons, concat]

theorem relabel_recorded (place : Place) (tree : TypeTree) (body : Script) :
    (recorded place tree body).relabel label =
      recorded place (tree.relabel label) (body.relabel label) := by
  unfold recorded
  split <;> rfl

theorem relabel_recordedAfter (place : Place) (tree : TypeTree) (lead : List Token)
    (body : Script) :
    (recordedAfter place tree lead body).relabel label =
      recordedAfter place (tree.relabel label) lead (body.relabel label) := by
  unfold recordedAfter
  split <;> rfl

end Script

def Record.relabel (label : SymbolId → SymbolId) (record : Record) : Record where
  names := record.names
  types := record.types.map (TypeTree.relabel label)

namespace Script

variable {label : SymbolId → SymbolId} {record : Record}

/-- A computation that does not see how symbols are named. -/
def Blind {α : Type} (label : SymbolId → SymbolId) (course course' : Course Record α) : Prop :=
  ∀ record, course' (record.relabel label) =
    (fun ending => (ending.1, ending.2.relabel label)) <$> course record

namespace Blind

variable {α β : Type} {course course' : Course Record α}

theorem pure (value : α) : Blind label (Pure.pure value) (Pure.pure value) := fun _ => rfl

theorem bind {next next' : α → Course Record β} (first : Blind label course course')
    (rest : ∀ value, Blind label (next value) (next' value)) :
    Blind label (course >>= next) (course' >>= next') := by
  intro record
  simp only [Bind.bind, StateT.bind, first record]
  cases course record with
  | error refusal => rfl
  | ok ending => exact rest ending.1 ending.2

theorem writeLevel (spelledOut : Bool) (tokens : List Token) :
    Blind label (Script.writeLevel spelledOut tokens) (Script.writeLevel spelledOut tokens) := by
  unfold Script.writeLevel
  cases spelledOut with
  | true => exact bind (fun _ => rfl) fun _ => pure _
  | false =>
      refine bind (fun _ => rfl) fun found => ?_
      cases found <;> exact pure _

theorem findOrInsertType (injective : Function.Injective label) (tree : TypeTree) :
    Blind label (Script.findOrInsertType tree) (Script.findOrInsertType (tree.relabel label)) := by
  intro record
  have found := Table.find?_map (TypeTree.relabel_injective injective) record.types tree
  have stored := Table.push_map (TypeTree.relabel label) record.types tree
  have left : Script.findOrInsertType (tree.relabel label) (record.relabel label) =
      .ok (((record.types.map (TypeTree.relabel label)).findOrInsert (tree.relabel label)).1,
        ⟨record.names,
          ((record.types.map (TypeTree.relabel label)).findOrInsert (tree.relabel label)).2⟩) := rfl
  have right : Script.findOrInsertType tree record =
      .ok ((record.types.findOrInsert tree).1, ⟨record.names, (record.types.findOrInsert tree).2⟩) :=
    rfl
  rw [left, right]
  unfold Table.findOrInsert
  rw [found]
  cases record.types.find? tree with
  | some index => rfl
  | none => exact congrArg (fun types => Except.ok (none, Record.mk record.names types)) stored

end Blind

/-- A script writes the same however the symbols in recorded types are named. -/
theorem blind_run (injective : Function.Injective label) (script : Script) :
    Blind label script.run (script.relabel label).run := by
  induction script with
  | write tokens => exact .pure tokens
  | refuse refusal => exact fun _ => rfl
  | append first second before after =>
      exact before.bind fun _ => after.bind fun _ => .pure _
  | level spelledOut body ih => exact ih.bind fun tokens => .writeLevel spelledOut tokens
  | orTypeRef tree body ih =>
      refine (Blind.findOrInsertType injective tree).bind fun found => ?_
      cases found with
      | some index => exact .pure _
      | none => exact ih
  | typeRefAfter tree lead body ih =>
      refine ih.bind fun tokens => (Blind.findOrInsertType injective tree).bind fun found => ?_
      cases found <;> exact .pure _

end Script

/-! ## Plans -/

namespace Plan

open LinkName.Item (Carries)

variable {graph graph' : Graph} {labels : Relabeling} (machine : Target)

theorem modifier_relabel (tree : TypeTree) (place : Place) :
    modifier machine (tree.relabel labels.symbol) place = modifier machine tree place := by
  simp only [modifier, TypeTree.isConst_relabel, TypeTree.isPointer_relabel]

theorem namedLead_relabel (labels : Relabeling) (machine : Target) (naming : Naming)
    (symbol : Symbol) (tree : TypeTree) (place : Place) :
    namedLead machine naming (symbol.relabel labels) (tree.relabel labels.symbol) place =
      namedLead machine naming symbol tree place := by
  have letter : recordLetter (symbol.relabel labels) = recordLetter symbol := by
    rcases symbol with ⟨ident, parent, access, sort⟩
    cases sort <;> rfl
  simp only [namedLead, letter, modifier_relabel, TypeTree.isConst_relabel]

variable (embeds : graph.Embeds graph' labels)
variable (formed : graph.WellFormed) (formed' : graph'.WellFormed)
variable {plan plan' : Plan} {id : SymbolId}
include embeds formed formed'

theorem arguments_relabel {owner : SymbolId} {args : List TemplateArg}
    (carries : Carries labels Script.relabel plan plan' (Item.ofArguments owner args)) :
    plan'.arguments graph' (labels.symbol owner) (TemplateArg.relabelAll labels args) =
      (plan.arguments graph owner args).relabel labels.symbol := by
  induction args with
  | nil => rfl
  | cons first rest ih =>
      cases first with
      | pack inner =>
          cases rest with
          | nil =>
              have written : (TemplateArg.relabelAll labels inner).map
                    (fun arg => plan' (.argument (labels.symbol owner) arg)) =
                  (inner.map fun arg => plan (.argument owner arg)).map
                    (Script.relabel labels.symbol) := by
                rw [TemplateArg.relabelAll_eq_map, List.map_map, List.map_map]
                exact List.map_congr_left fun arg listed =>
                  carries (.argument owner arg) (List.mem_append_left _ (List.mem_map_of_mem listed))
              simp only [TemplateArg.relabelAll, TemplateArg.relabel, arguments,
                Script.relabel_concat, written]
          | cons second rest =>
              simp only [TemplateArg.relabelAll, TemplateArg.relabel, arguments, Script.relabel,
                embeds.text formed formed']
              rfl
      | _ =>
          have tail := ih carries.tail
          have head := carries.head
          simp only [TemplateArg.relabelAll, TemplateArg.relabel, arguments, Script.relabel, tail,
            LinkName.Item.relabel] at head ⊢
          rw [head]

theorem levelName_relabel (spelledOut : Bool) (held : graph.Holds (.symbol id))
    (carries : Carries labels Script.relabel plan plan' (Item.ofLevel graph id)) :
    plan'.levelName graph' machine spelledOut (labels.symbol id) =
      (plan.levelName graph machine spelledOut id).relabel labels.symbol := by
  obtain ⟨⟨ident, parent, access, sort⟩, stored⟩ := Graph.holds_symbol_iff.mp held
  simp only [Item.ofLevel, stored] at carries
  simp only [levelName, stored, embeds.symbol_eq_ok stored, Script.ofExcept]
  cases sort with
  | specialization template args =>
      have right := carries.right
      simp only [Item.ofName, stored] at right
      have inside := arguments_relabel embeds formed formed' right
      have repeated : plan'.repeatedScope machine
            (Symbol.relabel labels ⟨ident, parent, access, .specialization template args⟩) =
          (plan.repeatedScope machine ⟨ident, parent, access, .specialization template args⟩).relabel
            labels.symbol := by
        cases parent with
        | none => rfl
        | some parent =>
            have outer := carries.left.head
            simp only [LinkName.Item.relabel] at outer
            simp only [repeatedScope, Symbol.relabel, Option.map_some, outer]
            split <;> rfl
      simp only [Symbol.relabel, SymbolSort.relabel] at repeated ⊢
      rw [repeated, inside]
      split <;> rfl
  | function info =>
      rcases info with ⟨type, role, needsThis, isVirtual, isConst⟩
      cases role <;> rfl
  | _ => rfl

theorem levelNames_relabel (spelledOut : Bool) (held : graph.Holds (.symbol id))
    (carries : Carries labels Script.relabel plan plan' (Item.ofLevels graph id)) :
    plan'.levelNames graph' machine spelledOut (labels.symbol id) =
      (plan.levelNames graph machine spelledOut id).relabel labels.symbol := by
  obtain ⟨names, found, above⟩ := formed.levels_eq_ok held
  simp only [Item.ofLevels, found] at carries
  have written : names.map (fun name => plan'.levelName graph' machine spelledOut (labels.symbol name)) =
      (names.map (plan.levelName graph machine spelledOut)).map (Script.relabel labels.symbol) := by
    rw [List.map_map]
    exact List.map_congr_left fun name listed =>
      levelName_relabel machine embeds formed formed' spelledOut ((above name listed).holds formed held)
        fun part inside => carries part (List.mem_flatMap.mpr ⟨name, listed, inside⟩)
  simp only [levelNames, found, embeds.levels formed' held found, Script.ofExcept,
    Script.relabel_concat, List.map_map, Function.comp_def] at written ⊢
  rw [written]

theorem qualifiedName_relabel (held : graph.Holds (.symbol id))
    (carries : Carries labels Script.relabel plan plan' (Item.ofLevels graph id)) :
    plan'.qualifiedName graph' machine (labels.symbol id) =
      (plan.qualifiedName graph machine id).relabel labels.symbol := by
  rw [qualifiedName, levelNames_relabel machine embeds formed formed' false held carries]
  rfl

omit embeds formed formed' in
theorem array_relabel {tree : TypeTree} {place : Place}
    (carries : Carries labels Script.relabel plan plan' (Item.ofPointee tree place)) :
    plan'.array machine (tree.relabel labels.symbol) place =
      (plan.array machine tree place).relabel labels.symbol := by
  have element := carries.head
  simp only [LinkName.Item.relabel] at element
  simp only [array, TypeTree.shape_relabel, modifier_relabel, element]
  rfl

omit embeds formed formed' in
theorem pointee_relabel {tree : TypeTree} {place : Place}
    (carries : Carries labels Script.relabel plan plan' (Item.ofPointee tree place)) :
    plan'.pointee machine (tree.relabel labels.symbol) place =
      (plan.pointee machine tree place).relabel labels.symbol := by
  have inside := carries.tail.head
  simp only [LinkName.Item.relabel] at inside
  simp only [pointee, TypeTree.isStaticArray_relabel, array_relabel machine carries, inside]
  split <;> rfl

theorem parameters_relabel {params : List (Passing × TypeTree)} (isVariadic : Bool)
    (carries : Carries labels Script.relabel plan plan'
      (params.map fun param => .type (TypeTree.passed param) {})) :
    plan'.parameters graph' (params.map fun param => (param.1, param.2.relabel labels.symbol))
        isVariadic =
      (plan.parameters graph params isVariadic).relabel labels.symbol := by
  have written : params.map (fun param =>
        plan'.parameter graph' (param.1, param.2.relabel labels.symbol)) =
      (params.map (plan.parameter graph)).map (Script.relabel labels.symbol) := by
    rw [List.map_map]
    refine List.map_congr_left fun param listed => ?_
    have inside := carries _ (List.mem_map_of_mem listed)
    simp only [parameter, Function.comp_apply, TypeTree.passed_relabel,
      TypeTree.isStaticArray_relabel, embeds.spell_text formed formed']
    split
    · rfl
    · exact inside
  simp only [parameters, Script.relabel, Script.relabel_concat, List.map_map, Function.comp_def,
    List.isEmpty_map] at written ⊢
  rw [written]

theorem functionType_relabel {tree : TypeTree} (needsThis isStructor : Bool)
    (carries : Carries labels Script.relabel plan plan' (Item.ofFunction tree)) :
    plan'.functionType graph' machine (tree.relabel labels.symbol) needsThis isStructor =
      (plan.functionType graph machine tree needsThis isStructor).relabel labels.symbol := by
  have text := embeds.spell_text formed formed' tree
  unfold functionType
  rw [text]
  cases tree with
  | function result' params convention quals =>
      have listed := parameters_relabel embeds formed formed' convention.variadic carries.tail
      have returns : plan'.result isStructor convention (result'.relabel labels.symbol) =
          (plan.result isStructor convention result').relabel labels.symbol := by
        have inside := carries.head
        simp only [LinkName.Item.relabel] at inside
        have mark (tree : TypeTree) : resultMark (tree.relabel labels.symbol) = resultMark tree := by
          cases tree with
          | named naming => cases naming <;> rfl
          | function => simp [resultMark]
          | _ => rfl
        simp only [result, TypeTree.returned_relabel, mark, inside]
        split <;> rfl
      simp only [TypeTree.relabel_function, listed, returns]
      split <;> rfl
  | _ => rfl

theorem pointer_relabel (tree : TypeTree) {target : TypeTree} {place : Place}
    (carries : Carries labels Script.relabel plan plan'
      (Item.ofPointee target place.below ++ Item.ofFunction target)) :
    plan'.pointer graph' machine (tree.relabel labels.symbol) (target.relabel labels.symbol) place =
      (plan.pointer graph machine tree target place).relabel labels.symbol := by
  have function := functionType_relabel machine embeds formed formed' false false
    carries.right
  have elements := array_relabel machine carries.left
  have inside := carries.left.tail.head
  simp only [LinkName.Item.relabel] at inside
  unfold pointer
  simp only [TypeTree.isConst_relabel, modifier_relabel]
  cases target with
  | function result params convention quals =>
      simp only [TypeTree.relabel_function] at function ⊢
      rw [function, Script.relabel_recordedAfter]
  | layer around inner quals =>
      simp only [TypeTree.relabel_layer] at elements inside ⊢
      cases around <;> simp only [elements, inside, Script.relabel_recorded, Script.relabel]
  | _ =>
      simp only [TypeTree.relabel_basic, TypeTree.relabel_named, TypeTree.relabel_assocArray]
        at inside ⊢
      simp only [inside, Script.relabel_recorded, Script.relabel]

theorem type_relabel {tree : TypeTree} (place : Place)
    (held : ∀ symbol ∈ tree.symbols, graph.Holds (.symbol symbol))
    (carries : Carries labels Script.relabel plan plan' (Item.ofType graph tree place)) :
    plan'.type graph' machine (tree.relabel labels.symbol) place =
      (plan.type graph machine tree place).relabel labels.symbol := by
  have text := embeds.spell_text formed formed' tree
  unfold type
  rw [TypeTree.isForeign_relabel, text]
  split
  · rfl
  · cases tree with
    | basic basic quals =>
        have known : basicType graph' machine (TypeTree.basic basic quals) basic place =
            (basicType graph machine (.basic basic quals) basic place).relabel labels.symbol := by
          simp only [TypeTree.relabel_basic] at text
          unfold basicType
          rw [text]
          cases builtin? machine basic with
          | none => rfl
          | some code =>
              dsimp only
              split
              · rw [Script.relabel_recorded]
                rfl
              · rfl
        exact known
    | layer around inner quals =>
        cases around with
        | pointer =>
            exact pointer_relabel machine embeds formed formed' (.layer .pointer inner quals) carries
        | reference | staticArray =>
            have inside := pointee_relabel machine carries.left
            simp only [TypeTree.relabel_layer, inside, Script.relabel_recorded, Script.relabel]
        | vector =>
            simp only [TypeTree.relabel_layer, Script.relabel_recorded, Script.relabel]
        | dynamicArray | delegate => rfl
    | named naming symbol quals =>
        have heldSymbol := held symbol List.mem_cons_self
        obtain ⟨found, stored⟩ := Graph.holds_symbol_iff.mp heldSymbol
        have inside := qualifiedName_relabel machine embeds formed formed' heldSymbol carries
        have lead := namedLead_relabel labels machine naming found
          (.named naming symbol quals) place
        have known : plan'.namedType graph' machine naming (labels.symbol symbol)
              ((TypeTree.named naming symbol quals).relabel labels.symbol) place =
            (plan.namedType graph machine naming symbol (.named naming symbol quals) place).relabel
              labels.symbol := by
          simp only [namedType, stored, embeds.symbol_eq_ok stored, Script.ofExcept, lead, inside,
            text]
          split <;> rfl
        cases naming with
        | typedef => rfl
        | _ => simp only [TypeTree.relabel_named] at known ⊢
               rw [known, Script.relabel_recorded, TypeTree.relabel_named]
    | assocArray key value quals => rfl
    | function result params convention quals =>
        simp only [TypeTree.relabel_function]
        rfl

omit formed' in
theorem isMember_relabel {symbol : Symbol} (stored : graph.symbol id = .ok symbol) :
    isMember graph' (symbol.relabel labels) = isMember graph symbol := by
  have parent : (symbol.relabel labels).parent = symbol.parent.map labels.symbol := rfl
  unfold isMember
  rw [parent]
  cases scope : symbol.parent with
  | none => rfl
  | some outer =>
      obtain ⟨⟨ident, further, access, sort⟩, known⟩ :=
        formed.symbol_mention (Graph.mentions_parent stored scope)
      simp only [Option.map_some, known, embeds.symbol_eq_ok known]
      cases sort <;> rfl

theorem functionName_relabel {symbol : Symbol} {info : FunctionInfo}
    (stored : graph.symbol id = .ok symbol) (sort : symbol.sort = .function info)
    (carries : Carries labels Script.relabel plan plan' (Item.ofDeclaration graph id)) :
    plan'.functionName graph' machine (labels.symbol id) (symbol.relabel labels)
        (info.relabel labels) =
      (plan.functionName graph machine id symbol info).relabel labels.symbol := by
  have held : graph.Holds (.symbol id) := Graph.holds_symbol_iff.mpr ⟨symbol, stored⟩
  have tree := embeds.tree formed formed' (formed.closed _ _ (Graph.mentions_function stored sort))
  have name := qualifiedName_relabel machine embeds formed formed' held carries.left
  have member := isMember_relabel embeds formed stored
  have signature : Carries labels Script.relabel plan plan'
      (Item.ofFunction (graph.tree info.type)) := by
    have right := carries.right
    rcases symbol with ⟨ident, parent, access, kind⟩
    obtain rfl : kind = .function info := sort
    simpa only [Item.ofSignature, stored] using right
  have type : (info.relabel labels).type = labels.type info.type := rfl
  simp only [functionName, name, member, type, tree,
    functionType_relabel machine embeds formed formed' _ _ signature]
  rfl

theorem variableName_relabel {symbol : Symbol} {info : VariableInfo}
    (stored : graph.symbol id = .ok symbol) (sort : symbol.sort = .var info)
    (carries : Carries labels Script.relabel plan plan' (Item.ofDeclaration graph id)) :
    plan'.variableName graph' machine (labels.symbol id) (symbol.relabel labels)
        (info.relabel labels) =
      (plan.variableName graph machine id symbol info).relabel labels.symbol := by
  have held : graph.Holds (.symbol id) := Graph.holds_symbol_iff.mpr ⟨symbol, stored⟩
  obtain ⟨scope, found⟩ := formed.scopeParent_eq_ok held
  have tree := embeds.tree formed formed' (formed.closed _ _ (Graph.mentions_variable stored sort))
  have name := qualifiedName_relabel machine embeds formed formed' held carries.left
  have types : Carries labels Script.relabel plan plan'
      [.type (graph.tree info.type) {}, .type (graph.tree info.type).mutable {}] := by
    have right := carries.right
    rcases symbol with ⟨ident, parent, access, kind⟩
    obtain rfl : kind = .var info := sort
    simpa only [Item.ofSignature, stored] using right
  have written : plan'.variableType ((graph.tree info.type).relabel labels.symbol) =
      (plan.variableType (graph.tree info.type)).relabel labels.symbol := by
    have whole := types.head
    have mutable := types.tail.head
    simp only [LinkName.Item.relabel] at whole mutable
    simp only [variableType, TypeTree.isPointer_relabel, TypeTree.mutable_relabel, whole, mutable]
    split <;> rfl
  have ending : variableEnd machine ((graph.tree info.type).relabel labels.symbol) =
      variableEnd machine (graph.tree info.type) := by
    simp only [variableEnd, TypeTree.isConst_relabel]
    cases graph.tree info.type with
    | layer around => cases around <;> rfl
    | function => simp
    | _ => rfl
  have type : (info.relabel labels).type = labels.type info.type := rfl
  have storage : (info.relabel labels).storage = info.storage := rfl
  have access : (symbol.relabel labels).access = symbol.access := rfl
  simp only [variableName, name, type, tree, storage, access, found, embeds.scopeParent found,
    Script.ofExcept, Option.isSome_map, TypeTree.isForeign_relabel, written, ending,
    embeds.spell_text formed formed', embeds.text formed formed']
  cases info.storage.isLinkable <;> cases (graph.tree info.type).isForeign <;> rfl

omit formed' in
theorem aliasLetter?_relabel {symbol : Symbol} {member : SymbolId}
    (stored : graph.symbol id = .ok symbol) (sort : symbol.sort = .template (some member)) :
    aliasLetter? graph' machine (labels.symbol member) = aliasLetter? graph machine member := by
  have listed : symbol ∈ graph.symbols :=
    List.mem_of_getElem? (Graph.symbol_eq_ok_iff.mp stored)
  obtain ⟨⟨ident, parent, access, inner⟩, known⟩ :=
    Graph.holds_symbol_iff.mp (formed.members symbol listed member sort)
  simp only [aliasLetter?, known, embeds.symbol_eq_ok known]
  cases inner <;> rfl

theorem argument_relabel {owner : SymbolId} {arg : TemplateArg} (held : graph.HoldsArg arg)
    (carries : Carries labels Script.relabel plan plan' (Item.parts graph (.argument owner arg))) :
    plan'.argument graph' machine (labels.symbol owner) (arg.relabel labels) =
      (plan.argument graph machine owner arg).relabel labels.symbol := by
  have refusal : Refusal.argument (graph'.text (labels.symbol owner))
        (graph'.argumentText graph'.text (arg.relabel labels)) =
      Refusal.argument (graph.text owner) (graph.argumentText graph.text arg) := by
    rw [embeds.text formed formed', embeds.argumentText_text formed formed' held]
  cases arg with
  | type id =>
      have inside := carries.head
      simp only [LinkName.Item.relabel] at inside
      simp only [TemplateArg.relabel, argument, embeds.tree formed formed' (held _ rfl), inside]
  | value id number =>
      simp only [TemplateArg.relabel] at refusal
      simp only [TemplateArg.relabel, argument, refusal, TypeTree.integral?_relabel,
        embeds.tree formed formed' (held _ rfl)]
      split <;> rfl
  | typeAlias id | pack args =>
      simp only [TemplateArg.relabel] at refusal
      simp only [TemplateArg.relabel, argument, refusal]
      rfl
  | symbolAlias target =>
      have heldTarget : graph.Holds (.symbol target) := held _ rfl
      obtain ⟨symbol, stored⟩ := Graph.holds_symbol_iff.mp heldTarget
      simp only [TemplateArg.relabel] at refusal
      simp only [TemplateArg.relabel, argument, refusal, stored, embeds.symbol_eq_ok stored,
        Script.ofExcept]
      have sorted : (symbol.relabel labels).sort = symbol.sort.relabel labels := rfl
      rw [sorted]
      cases sort : symbol.sort with
      | function info =>
          simp only [SymbolSort.relabel,
            functionName_relabel machine embeds formed formed' stored sort carries]
          rfl
      | var info =>
          simp only [SymbolSort.relabel,
            variableName_relabel machine embeds formed formed' stored sort carries]
          rfl
      | template member =>
          cases member with
          | none => rfl
          | some member =>
              simp only [SymbolSort.relabel, Option.map_some,
                aliasLetter?_relabel machine embeds formed stored sort,
                qualifiedName_relabel machine embeds formed formed' heldTarget carries.left]
              split <;> rfl
      | _ => rfl

theorem item_relabel {item : Item} (held : item.Held graph)
    (carries : Carries labels Script.relabel plan plan' (Item.parts graph item)) :
    plan'.item graph' machine (item.relabel labels) =
      (plan.item graph machine item).relabel labels.symbol := by
  cases item with
  | scope id => exact levelNames_relabel machine embeds formed formed' true held carries
  | argument owner arg => exact argument_relabel machine embeds formed formed' held.2 carries
  | type tree place => exact type_relabel machine embeds formed formed' place held carries

theorem declaration_relabel (held : graph.Holds (.symbol id))
    (carries : Carries labels Script.relabel plan plan' (Item.ofDeclaration graph id)) :
    plan'.declaration graph' machine (labels.symbol id) =
      (plan.declaration graph machine id).relabel labels.symbol := by
  obtain ⟨symbol, stored⟩ := Graph.holds_symbol_iff.mp held
  simp only [declaration, stored, embeds.symbol_eq_ok stored, Script.ofExcept,
    embeds.text formed formed']
  have sorted : (symbol.relabel labels).sort = symbol.sort.relabel labels := rfl
  rw [sorted]
  cases sort : symbol.sort with
  | function info => exact functionName_relabel machine embeds formed formed' stored sort carries
  | var info => exact variableName_relabel machine embeds formed formed' stored sort carries
  | _ => rfl

theorem within_relabel (depth : Nat) {item : Item} (held : item.Held graph) :
    within graph' machine depth (item.relabel labels) =
      (within graph machine depth item).relabel labels.symbol := by
  induction depth generalizing item with
  | zero => rfl
  | succ depth ih =>
      exact item_relabel machine embeds formed formed' held fun part listed =>
        ih (Item.below_parts formed formed.order held part listed).1

end Plan

end LinkName.Microsoft
