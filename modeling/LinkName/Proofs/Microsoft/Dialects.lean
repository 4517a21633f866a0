import LinkName.Proofs.Microsoft.Constness
import Mathlib.Tactic.IntervalCases

/-!
The two dialects of Microsoft names. The older one spells arrays, specializations and two builtin
types in ways of its own, and it marks the `const` of a value that is passed or returned. What leads
to none of these has one name in both dialects.
-/
namespace LinkName

/-- A builtin type, a record or an enumeration that is `const` itself. -/
def TypeNode.isConstValue (node : TypeNode) : Bool :=
  match node.form with
  | .basic _ | .record _ | .enumeration _ _ => node.isConst
  | _ => false

namespace Graph

/-- The symbol leads to the entity through parents, types, templates and arguments. -/
def Reaches (graph : Graph) (id : SymbolId) (entity : Entity) : Prop :=
  Relation.ReflTransGen graph.Mentions (.symbol id) entity

/-- What a symbol leads to is in every list that has the symbol and what its elements mention. -/
theorem mem_of_reaches {graph : Graph} {id : SymbolId} {entities : List Entity}
    (first : .symbol id ∈ entities)
    (closed : ∀ entity ∈ entities, ∀ mention ∈ graph.mentions entity, mention ∈ entities)
    {entity : Entity} (reached : graph.Reaches id entity) : entity ∈ entities := by
  induction reached with
  | refl => exact first
  | tail _ mentioned ih => exact closed _ ih _ mentioned

/-- The symbol leads to nothing that the dialects spell in different ways. -/
structure DialectFree (graph : Graph) (id : SymbolId) : Prop where
  plain : ∀ other symbol, graph.Reaches id (.symbol other) → graph.symbol other = .ok symbol →
    symbol.template? = none
  forms : ∀ type node, graph.Reaches id (.type type) → graph.type type = .ok node →
    node.form ≠ .basic .float80 ∧ node.form ≠ .basic .dchar ∧ node.form.isStaticArray = false
  passed : ∀ type signature quals, graph.Reaches id (.type type) →
    graph.type type = .ok { form := .function signature, quals } → ∀ param ∈ signature.params,
      param.passing = .value ∨ param.passing = .lazy →
        ∀ node, graph.type param.type = .ok node → node.isConstValue = false
  returned : ∀ type signature quals, graph.Reaches id (.type type) →
    graph.type type = .ok { form := .function signature, quals } → signature.refResult = false →
      ∀ node, graph.type signature.result = .ok node → node.isConstValue = false

/-- The symbol is held, and no specialization is among its levels. -/
def Plain (graph : Graph) (symbol : SymbolId) : Prop :=
  graph.Holds (.symbol symbol) ∧ ∀ name found, graph.AtOrAbove symbol name →
    graph.symbol name = .ok found → found.template? = none

end Graph

namespace TypeTree

def isConstValue : TypeTree → Bool
  | .basic _ quals | .named .record _ quals | .named (.enumeration _) _ quals => quals.isConst
  | _ => false

/-- Both dialects spell the type in the same way, wherever they spell its own `const` alike. -/
inductive Neutral (graph : Graph) : TypeTree → Prop
  | basic {builtin : BasicType} (quals : Qualifiers) (real : builtin ≠ .float80)
      (char : builtin ≠ .dchar) : Neutral graph (.basic builtin quals)
  | layer {around : Layer} {inner : TypeTree} (quals : Qualifiers) (single : around.isArray = false)
      (told : Neutral graph inner) : Neutral graph (.layer around inner quals)
  | named (naming : Naming) {symbol : SymbolId} (quals : Qualifiers) (plain : graph.Plain symbol) :
      Neutral graph (.named naming symbol quals)
  | assocArray {key value : TypeTree} (quals : Qualifiers) (told : Neutral graph key)
      (also : Neutral graph value) : Neutral graph (.assocArray key value quals)
  | function {result : TypeTree} {params : List (Passing × TypeTree)} {convention : Convention}
      (quals : Qualifiers) (told : Neutral graph result)
      (each : ∀ param ∈ params, Neutral graph param.2)
      (passed : ∀ param ∈ params, param.1 = .value ∨ param.1 = .lazy → param.2.isConstValue = false)
      (returned : convention.refResult = false → result.isConstValue = false) :
      Neutral graph (.function result params convention quals)

theorem isConstValue_mutable (tree : TypeTree) : tree.mutable.isConstValue = false := by
  cases tree with
  | named naming => cases naming <;> rfl
  | _ => rfl

namespace Neutral

variable {graph : Graph} {tree : TypeTree}

theorem mutable (neutral : Neutral graph tree) : Neutral graph tree.mutable := by
  cases neutral with
  | basic quals real char => exact .basic _ real char
  | layer quals single told => exact .layer _ single told
  | named naming quals plain => exact .named naming _ plain
  | assocArray quals told also => exact .assocArray _ told also
  | function quals told each passed returned => exact .function _ told each passed returned

theorem reference (neutral : Neutral graph tree) : Neutral graph (reference tree) :=
  .layer {} rfl neutral

theorem passed {param : Passing × TypeTree} (neutral : Neutral graph param.2)
    (mutable : param.1 = .value ∨ param.1 = .lazy → param.2.isConstValue = false) :
    Neutral graph (passed param) ∧ (TypeTree.passed param).isConstValue = false := by
  rcases param with ⟨passing, type⟩
  cases passing with
  | value => exact ⟨neutral, mutable (.inl rfl)⟩
  | ref | out => exact ⟨neutral.reference, rfl⟩
  | lazy =>
      have returned : type.isConstValue = false := mutable (.inr rfl)
      exact ⟨.layer {} rfl (.function {} neutral (by simp) (by simp) fun _ => returned), rfl⟩

theorem returned {convention : Convention} (neutral : Neutral graph tree)
    (mutable : convention.refResult = false → tree.isConstValue = false) :
    Neutral graph (returned convention tree) ∧
      (TypeTree.returned convention tree).isConstValue = false := by
  unfold TypeTree.returned
  cases referred : convention.refResult with
  | true => exact ⟨neutral.reference, rfl⟩
  | false => exact ⟨neutral, mutable referred⟩

end Neutral

end TypeTree

namespace TypeNode

theorem isConstValue_tree (part : TypeId → TypeTree) (node : TypeNode) :
    (node.tree part).isConstValue = node.isConstValue := by
  rcases node with ⟨form, quals⟩
  cases form <;> rfl

end TypeNode

namespace Graph

variable {graph : Graph} {id : SymbolId}

theorem DialectFree.plain_of_reaches (free : graph.DialectFree id) {symbol : SymbolId}
    (reached : graph.Reaches id (.symbol symbol)) (held : graph.Holds (.symbol symbol)) :
    graph.Plain symbol :=
  ⟨held, fun name found above stored => free.plain name found (reached.trans above) stored⟩

/-- The types that the symbol leads to are neutral. -/
theorem DialectFree.neutral_tree (free : graph.DialectFree id) (formed : graph.WellFormed)
    {type : TypeId} (held : graph.Holds (.type type)) (reached : graph.Reaches id (.type type)) :
    (graph.tree type).Neutral graph := by
  refine formed.type_induction (motive := fun type =>
    graph.Reaches id (.type type) → (graph.tree type).Neutral graph) ?_ held reached
  intro type node stored parts symbols ih reached
  have inner (part : TypeId) (listed : part ∈ node.form.parts) : (graph.tree part).Neutral graph :=
    ih part listed (reached.tail (parts part listed))
  have value (part : TypeId) (listed : part ∈ node.form.parts)
      (mutable : ∀ node, graph.type part = .ok node → node.isConstValue = false) :
      (graph.tree part).isConstValue = false := by
    obtain ⟨found, known⟩ := holds_type_iff.mp (formed.closed _ _ (parts part listed))
    rw [formed.tree_eq known, TypeNode.isConstValue_tree]
    exact mutable found known
  have plain (symbol : SymbolId) (named : symbol ∈ node.form.symbol?) : graph.Plain symbol :=
    free.plain_of_reaches (reached.tail (symbols symbol named))
      (formed.closed _ _ (symbols symbol named))
  obtain ⟨real, char, single⟩ := free.forms type node reached stored
  rw [formed.tree_eq stored]
  rcases node with ⟨form, quals⟩
  cases form with
  | basic builtin => exact .basic quals (fun same => real (same ▸ rfl)) fun same => char (same ▸ rfl)
  | record symbol | enumeration symbol base | classRef symbol | typedef symbol =>
      exact .named _ quals (plain symbol rfl)
  | staticArray dim element => cases single
  | assocArray key element =>
      exact .assocArray quals (inner key (by simp [TypeForm.parts]))
        (inner element (by simp [TypeForm.parts]))
  | function signature =>
      refine .function quals (inner _ List.mem_cons_self) ?_ ?_ ?_
      · intro param listed
        obtain ⟨original, known, rfl⟩ := List.mem_map.mp listed
        exact inner _ (List.mem_cons_of_mem _ (List.mem_map_of_mem known))
      · intro param listed passing
        obtain ⟨original, known, rfl⟩ := List.mem_map.mp listed
        exact value _ (List.mem_cons_of_mem _ (List.mem_map_of_mem known))
          (free.passed type signature quals reached stored original known passing)
      · intro direct
        exact value _ List.mem_cons_self (free.returned type signature quals reached stored direct)
  | _ => exact .layer quals rfl (inner _ List.mem_cons_self)

end Graph

namespace Microsoft

/-! ## Codes -/

section

variable {machine machine' : Target}

theorem builtin?_eq {basic : BasicType} (real : basic ≠ .float80) (char : basic ≠ .dchar) :
    builtin? machine basic = builtin? machine' basic := by
  cases basic <;> first | rfl | contradiction

variable (wide : machine.is64Bit = machine'.is64Bit)
include wide

theorem width_eq : width machine = width machine' := by rw [width, width, wide]

theorem convention?_eq (linkage : Linkage) (isMember : Bool) :
    convention? machine linkage isMember = convention? machine' linkage isMember := by
  unfold convention?
  rw [wide]

theorem placement_eq (info : FunctionInfo) (access : Access) (member : Bool) :
    placement machine info access member = placement machine' info access member := by
  rw [placement, placement, width_eq wide]

theorem variableEnd_eq (tree : TypeTree) :
    Plan.variableEnd machine tree = Plan.variableEnd machine' tree := by
  unfold Plan.variableEnd
  rw [width_eq wide]

end

namespace Plan

variable {graph : Graph} {machine machine' : Target} {plan plan' : Plan}

theorem modifier_eq {tree : TypeTree} {place : Place}
    (settled : place.indirect = true ∨ tree.isConst = false ∨ tree.isPointer = true) :
    modifier machine tree place = modifier machine' tree place := by
  rw [modifier, modifier]
  rcases settled with below | mutable | points <;> simp_all

/-! ## Names of scopes -/

theorem levelName_plain {id : SymbolId} {symbol : Symbol} (stored : graph.symbol id = .ok symbol)
    (plain : symbol.template? = none) (spelledOut : Bool) :
    levelName graph machine plan spelledOut id = levelName graph machine' plan' spelledOut id := by
  rcases symbol with ⟨ident, parent, access, sort⟩
  simp only [levelName, stored, Script.ofExcept]
  cases sort with
  | specialization template args => cases plain
  | function info => rcases info with ⟨type, role⟩; cases role <;> rfl
  | _ => rfl

/-- A name without specializations does not depend on the dialect. -/
theorem qualifiedName_plain (formed : graph.WellFormed) {symbol : SymbolId}
    (plain : graph.Plain symbol) :
    qualifiedName graph machine plan symbol = qualifiedName graph machine' plan' symbol := by
  obtain ⟨held, levels⟩ := plain
  obtain ⟨names, found, above⟩ := formed.levels_eq_ok held
  have each : names.map (levelName graph machine plan false) =
      names.map (levelName graph machine' plan' false) := by
    refine List.map_congr_left fun name listed => ?_
    obtain ⟨level, stored⟩ := Graph.holds_symbol_iff.mp ((above name listed).holds formed held)
    exact levelName_plain stored (levels name level (above name listed) stored) false
  simp only [qualifiedName, levelNames, found, Script.ofExcept, each]

/-! ## Types -/

/-- Two plans have one script for a neutral type wherever the dialects spell its `const` alike. -/
def Agree (graph : Graph) (plan plan' : Plan) : Prop :=
  ∀ tree place, tree.Neutral graph → place.indirect = true ∨ tree.isConstValue = false →
    plan (.type tree place) = plan' (.type tree place)

variable (agree : Agree graph plan plan')
include agree

theorem parameters_agree {params : List (Passing × TypeTree)}
    (each : ∀ param ∈ params, param.2.Neutral graph)
    (passed : ∀ param ∈ params, param.1 = .value ∨ param.1 = .lazy → param.2.isConstValue = false)
    (isVariadic : Bool) :
    parameters graph plan params isVariadic = parameters graph plan' params isVariadic := by
  have same : params.map (parameter graph plan) = params.map (parameter graph plan') := by
    refine List.map_congr_left fun param listed => ?_
    obtain ⟨neutral, mutable⟩ := (each param listed).passed (passed param listed)
    rw [parameter, parameter, agree _ {} neutral (.inr mutable)]
  rw [parameters, parameters, same]

/-- What a reference leads to; it is no array. -/
theorem pointee_agree {tree : TypeTree} {place : Place} (neutral : tree.Neutral graph)
    (below : place.indirect = true) :
    pointee machine plan tree place = pointee machine' plan' tree place := by
  have single : tree.isStaticArray = false := by
    cases neutral with
    | @layer around => cases around <;> first | rfl | contradiction
    | _ => rfl
  simp only [pointee, single, Bool.false_eq_true, if_false]
  exact agree tree place neutral (.inl below)

variable (wide : machine.is64Bit = machine'.is64Bit)
include wide

theorem functionType_agree {tree : TypeTree} (neutral : tree.Neutral graph)
    (needsThis isStructor : Bool) :
    functionType graph machine plan tree needsThis isStructor =
      functionType graph machine' plan' tree needsThis isStructor := by
  cases neutral with
  | @function result' params convention quals told each passed returned =>
      obtain ⟨neutral, mutable⟩ := told.returned returned
      have back : result plan isStructor convention result' =
          result plan' isStructor convention result' := by
        rw [result, result, agree _ { returned := true } neutral (.inr mutable)]
      simp only [functionType, convention?_eq wide, parameters_agree agree each passed, back]
  | _ => rfl

theorem pointer_agree {target : TypeTree} {quals : Qualifiers} {place : Place}
    (neutral : target.Neutral graph) :
    pointer graph machine plan (.layer .pointer target quals) target place =
      pointer graph machine' plan' (.layer .pointer target quals) target place := by
  have mark : modifier machine (.layer .pointer target quals) place =
      modifier machine' (.layer .pointer target quals) place := modifier_eq (.inr (.inr rfl))
  have whole := agree target place.below neutral (.inl rfl)
  have function := functionType_agree agree wide neutral false false
  unfold pointer
  cases neutral with
  | function => simp only [function]
  | @layer around inner quals single told =>
      cases around with
      | staticArray dim => cases single
      | _ => simp only [mark, whole, width_eq wide]
  | _ => simp only [mark, whole, width_eq wide]

omit agree in
theorem namedType_agree (formed : graph.WellFormed) {naming : Naming} {symbol : SymbolId}
    {quals : Qualifiers} {place : Place} (plain : graph.Plain symbol)
    (settled : place.indirect = true ∨
      (TypeTree.named naming symbol quals).isConstValue = false) :
    namedType graph machine plan naming symbol (.named naming symbol quals) place =
      namedType graph machine' plan' naming symbol (.named naming symbol quals) place := by
  have mark (known : place.indirect = true ∨ (TypeTree.named naming symbol quals).isConst = false) :
      modifier machine (.named naming symbol quals) place =
        modifier machine' (.named naming symbol quals) place :=
    modifier_eq (known.imp_right .inl)
  have lead (found : Symbol) :
      namedLead machine naming found (.named naming symbol quals) place =
        namedLead machine' naming found (.named naming symbol quals) place := by
    cases naming with
    | typedef => rfl
    | record | enumeration base => simp only [namedLead, mark settled]
    | classRef =>
        have outer : (if place.indirect then modifier machine (.named .classRef symbol quals) place
              else []) =
            if place.indirect then modifier machine' (.named .classRef symbol quals) place else [] := by
          split
          · next below => exact mark (.inl below)
          · rfl
        have inner : modifier machine (.named .classRef symbol quals) place.below =
            modifier machine' (.named .classRef symbol quals) place.below := modifier_eq (.inl rfl)
        simp only [namedLead, outer, inner, width_eq wide]
  have names : qualifiedName graph machine plan symbol = qualifiedName graph machine' plan' symbol :=
    qualifiedName_plain formed plain
  simp only [namedType, lead, names]

omit agree wide in
theorem basicType_agree {basic : BasicType} {quals : Qualifiers} {place : Place}
    (real : basic ≠ .float80) (char : basic ≠ .dchar)
    (settled : place.indirect = true ∨ (TypeTree.basic basic quals).isConstValue = false) :
    basicType graph machine (.basic basic quals) basic place =
      basicType graph machine' (.basic basic quals) basic place := by
  have mark : modifier machine (.basic basic quals) place =
      modifier machine' (.basic basic quals) place :=
    modifier_eq (settled.imp_right .inl)
  have kept (machine : Target) :
      ((TypeTree.basic basic quals).isConst && (place.indirect || machine.isLegacy)) =
        ((TypeTree.basic basic quals).isConst && place.indirect) := by
    rcases settled with below | mutable
    · simp [below]
    · have mutable : (TypeTree.basic basic quals).isConst = false := mutable
      simp [mutable]
  have code : builtin? machine basic = builtin? machine' basic := builtin?_eq real char
  simp only [basicType, code, mark, kept]

/-- A neutral type has one script wherever the dialects spell its `const` alike. -/
theorem type_agree (formed : graph.WellFormed) {tree : TypeTree} {place : Place}
    (neutral : tree.Neutral graph)
    (settled : place.indirect = true ∨ tree.isConstValue = false) :
    type graph machine plan tree place = type graph machine' plan' tree place := by
  unfold type
  cases neutral with
  | @basic basic quals real char =>
      have same : basicType graph machine (.basic basic quals) basic place =
          basicType graph machine' (.basic basic quals) basic place :=
        basicType_agree real char settled
      simp only [same]
  | @layer around inner quals single told =>
      cases around with
      | staticArray dim => cases single
      | pointer => simp only [pointer_agree agree wide told]
      | reference =>
          have pointed : pointee machine plan inner place.below =
              pointee machine' plan' inner place.below :=
            pointee_agree agree told rfl
          simp only [pointed, width_eq wide]
      | _ => rfl
  | @named naming symbol quals plain =>
      have same : namedType graph machine plan naming symbol (.named naming symbol quals) place =
          namedType graph machine' plan' naming symbol (.named naming symbol quals) place :=
        namedType_agree wide formed plain settled
      cases naming with
      | typedef => rfl
      | _ => simp only [same]
  | assocArray | function => rfl

omit agree in
/-- Both dialects give neutral types the same scripts, however deep they are nested. -/
theorem within_agree (formed : graph.WellFormed) (depth : Nat) :
    Agree graph (within graph machine depth) (within graph machine' depth) := by
  induction depth with
  | zero => exact fun _ _ _ _ => rfl
  | succ depth ih => exact fun tree place neutral settled => type_agree ih wide formed neutral settled

/-! ## Declarations -/

theorem functionName_agree (formed : graph.WellFormed) {id : SymbolId} {symbol : Symbol}
    {info : FunctionInfo} (plain : graph.Plain id) (neutral : (graph.tree info.type).Neutral graph) :
    functionName graph machine plan id symbol info =
      functionName graph machine' plan' id symbol info := by
  have names : qualifiedName graph machine plan id = qualifiedName graph machine' plan' id :=
    qualifiedName_plain formed plain
  simp only [functionName, names, placement_eq wide, functionType_agree agree wide neutral]

theorem variableName_agree (formed : graph.WellFormed) {id : SymbolId} {symbol : Symbol}
    {info : VariableInfo} (plain : graph.Plain id) (neutral : (graph.tree info.type).Neutral graph) :
    variableName graph machine plan id symbol info =
      variableName graph machine' plan' id symbol info := by
  have names : qualifiedName graph machine plan id = qualifiedName graph machine' plan' id :=
    qualifiedName_plain formed plain
  have typed : variableType plan (graph.tree info.type) = variableType plan' (graph.tree info.type) := by
    unfold variableType
    split
    · next points =>
      refine agree _ {} neutral (.inr ?_)
      cases same : graph.tree info.type <;> simp_all [TypeTree.isPointer, TypeTree.isConstValue]
    · exact agree _ {} neutral.mutable (.inr (TypeTree.isConstValue_mutable _))
  simp only [variableName, names, typed, variableEnd_eq wide]

theorem declaration_agree (formed : graph.WellFormed) {id : SymbolId}
    (held : graph.Holds (.symbol id)) (free : graph.DialectFree id) :
    declaration graph machine plan id = declaration graph machine' plan' id := by
  obtain ⟨symbol, stored⟩ := Graph.holds_symbol_iff.mp held
  have plain : graph.Plain id := free.plain_of_reaches .refl held
  have neutral (type : TypeId) (mentioned : graph.Mentions (.symbol id) (.type type)) :
      (graph.tree type).Neutral graph :=
    free.neutral_tree formed (formed.closed _ _ mentioned) (.single mentioned)
  simp only [declaration, stored, Script.ofExcept]
  cases sort : symbol.sort with
  | function info =>
      exact functionName_agree agree wide formed plain (neutral _ (Graph.mentions_function stored sort))
  | var info =>
      exact variableName_agree agree wide formed plain (neutral _ (Graph.mentions_variable stored sort))
  | _ => rfl

end Plan

/-! ## Names -/

theorem nameScript_dialects {graph : Graph} (formed : graph.WellFormed) {id : SymbolId}
    (held : graph.Holds (.symbol id)) (free : graph.DialectFree id) {target target' : Target}
    (wide : target.is64Bit = target'.is64Bit) :
    nameScript graph target id = nameScript graph target' id :=
  Plan.declaration_agree (Plan.within_agree wide formed _) wide formed held free

/-- Where a symbol leads to nothing that the dialects spell in different ways, both give it one name
or refuse it for one reason. -/
theorem nameFor_dialects {graph : Graph} (built : graph.Built) {id : SymbolId}
    (held : graph.Holds (.symbol id)) (free : graph.DialectFree id) (target : Target) :
    nameFor graph { target with abi := .microsoft .modern } id =
      nameFor graph { target with abi := .microsoft .legacy } id := by
  have formed := built.wellFormed
  have same : nameScript graph { target with abi := .microsoft .modern } id =
      nameScript graph { target with abi := .microsoft .legacy } id :=
    nameScript_dialects formed held free rfl
  rw [nameFor_eq_run formed held, nameFor_eq_run formed held, same]

/-- A callback that is given a constant text, and a function that takes such texts, a mode and the
callback and returns a record. The graph holds an array, a `real` and a specialization as well, to
none of which the function leads. -/
def mixer : Graph where
  symbols :=
    [{ ident := "app", sort := .moduleScope },
      { ident := "Tint", parent := some ⟨0⟩, sort := .record .struct },
      { ident := "Mode", parent := some ⟨0⟩, sort := .enumeration },
      { ident := "mix", parent := some ⟨0⟩, sort := .function { type := ⟨8⟩ } },
      { ident := "Cell", parent := some ⟨0⟩, sort := .template none },
      { ident := "Cell", parent := some ⟨0⟩, sort := .specialization ⟨4⟩ [.type ⟨10⟩] }]
  types :=
    [{ form := .basic .void }, { form := .basic .char },
      { form := .basic .char, quals := { isConst := true } }, { form := .pointer ⟨2⟩ },
      { form := .record ⟨1⟩ }, { form := .enumeration ⟨2⟩ .int32 },
      { form := .function { result := ⟨0⟩, params := [{ type := ⟨3⟩ }] } }, { form := .pointer ⟨6⟩ },
      { form := .function
          { result := ⟨4⟩,
            params :=
              [{ type := ⟨3⟩ }, { type := ⟨5⟩ }, { type := ⟨7⟩ },
                { type := ⟨2⟩, passing := .ref }] } },
      { form := .staticArray 3 ⟨1⟩ }, { form := .basic .float80 }]

theorem mixer_built : mixer.Built :=
  Graph.built_of_takeAll?
    [.symbol { ident := "app", sort := .moduleScope },
      .symbol { ident := "Tint", parent := some ⟨0⟩, sort := .record .struct },
      .symbol { ident := "Mode", parent := some ⟨0⟩, sort := .enumeration },
      .type { form := .basic .void }, .type { form := .basic .char },
      .type { form := .basic .char, quals := { isConst := true } }, .type { form := .pointer ⟨2⟩ },
      .type { form := .record ⟨1⟩ }, .type { form := .enumeration ⟨2⟩ .int32 },
      .type { form := .function { result := ⟨0⟩, params := [{ type := ⟨3⟩ }] } },
      .type { form := .pointer ⟨6⟩ },
      .type
        { form := .function
            { result := ⟨4⟩,
              params :=
                [{ type := ⟨3⟩ }, { type := ⟨5⟩ }, { type := ⟨7⟩ },
                  { type := ⟨2⟩, passing := .ref }] } },
      .type { form := .staticArray 3 ⟨1⟩ }, .type { form := .basic .float80 },
      .symbol { ident := "mix", parent := some ⟨0⟩, sort := .function { type := ⟨8⟩ } },
      .symbol { ident := "Cell", parent := some ⟨0⟩, sort := .template none },
      .specialization ⟨4⟩ [.type ⟨10⟩]] rfl

/-- What `mix` leads to lies before the array, the `real` and the specialization. -/
theorem mixer_reaches {entity : Entity} (reached : mixer.Reaches ⟨3⟩ entity) :
    entity ∈ (List.range 4).map (.symbol ⟨·⟩) ++ (List.range 9).map (.type ⟨·⟩) :=
  Graph.mem_of_reaches (by decide) (by decide) reached

theorem mixer_dialectFree : mixer.DialectFree ⟨3⟩ := by
  have symbols {id : SymbolId} (reached : mixer.Reaches ⟨3⟩ (.symbol id)) : id.index < 4 := by
    obtain ⟨index, small, rfl⟩ : ∃ index, index < 4 ∧ SymbolId.mk index = id := by
      simpa using mixer_reaches reached
    exact small
  have types {id : TypeId} (reached : mixer.Reaches ⟨3⟩ (.type id)) : id.index < 9 := by
    obtain ⟨index, small, rfl⟩ : ∃ index, index < 9 ∧ TypeId.mk index = id := by
      simpa using mixer_reaches reached
    exact small
  constructor
  · rintro ⟨index⟩ symbol reached stored
    have small := symbols reached
    interval_cases index <;> cases stored <;> rfl
  · rintro ⟨index⟩ node reached stored
    have small := types reached
    interval_cases index <;> cases stored <;> exact ⟨nofun, nofun, rfl⟩
  · rintro ⟨index⟩ signature quals reached stored param listed passing node known
    have small := types reached
    interval_cases index <;> cases stored
    · obtain rfl := List.mem_singleton.mp listed
      cases known
      rfl
    · simp only [List.mem_cons, List.not_mem_nil, or_false] at listed
      obtain rfl | rfl | rfl | rfl := listed
      case inr.inr.inr => simp at passing
      all_goals cases known; rfl
  · rintro ⟨index⟩ signature quals reached stored direct node known
    have small := types reached
    interval_cases index <;> cases stored <;> cases known <;> rfl

/-- Both dialects give `mix` one name, in a graph that also holds what they tell apart. -/
theorem nameFor_dialects_mixer :
    mixer.DialectFree ⟨3⟩ ∧
      nameFor mixer { Target.microsoft64 with abi := .microsoft .legacy } ⟨3⟩ =
        .ok "?mix@@YA?AUTint@@PEBDW4Mode@@P6AX0@ZAEBD@Z" := by
  refine ⟨mixer_dialectFree, ?_⟩
  rw [← nameFor_dialects mixer_built (by decide) mixer_dialectFree]
  decide +kernel

end Microsoft

end LinkName
