import LinkName.Proofs.Completion
import LinkName.Proofs.Itanium.Orderly
import LinkName.Proofs.Itanium.Parts

/-!
How Itanium names end. Every slot that is referred back to is in the table, and the table holds
nothing but symbols of the graph, types, and for each slot that is merely counted a type next to it.
-/
namespace LinkName.Itanium

variable {graph : Graph}

def Component.isType : Component → Bool
  | .type _ => true
  | .symbol _ | .unnamed => false

/-- The state that the substitution table is always in. -/
structure Admitted (graph : Graph) (table : Table Component) : Prop where
  unlimited : table.limit = none
  held : ∀ id, Component.symbol id ∈ table.entries → graph.Holds (.symbol id)
  paired : table.entries.count .unnamed ≤ table.entries.countP Component.isType

/-- Only what is in the table is referred back to. -/
def discipline (graph : Graph) : Discipline (Table Component) Token where
  admits := Admitted graph
  allows table token := ∀ slot, token = .backRef slot → slot < table.size

abbrev Writes (base : Session graph (Table Component)) (computation : Encoder graph (List Token)) :
    Prop :=
  (discipline graph).Writes base computation

section

variable {table : Table Component} {slot number : Nat} {written ident : String}

@[simp] theorem allows_text : (discipline graph).allows table (.text written) := by
  rintro slot ⟨⟩

@[simp] theorem allows_source : (discipline graph).allows table (.source ident) := by
  rintro slot ⟨⟩

@[simp] theorem allows_number : (discipline graph).allows table (.number number) := by
  rintro slot ⟨⟩

@[simp] theorem allows_backRef :
    (discipline graph).allows table (.backRef slot) ↔ slot < table.size := by
  constructor
  · exact fun allowed => allowed slot rfl
  · rintro inside other ⟨⟩
    exact inside

end

/-! ## Slots -/

namespace Admitted

variable {table : Table Component} {component : Component}

theorem entries_push (admitted : Admitted graph table) :
    (table.push component).2.entries = table.entries ++ [component] := by
  simp [Table.entries_push, Table.isFull, admitted.unlimited]

theorem push (admitted : Admitted graph table) (named : component ≠ .unnamed)
    (held : ∀ id, component = .symbol id → graph.Holds (.symbol id)) :
    Admitted graph (table.push component).2 where
  unlimited := (table.limit_push component).trans admitted.unlimited
  held id listed := by
    rw [admitted.entries_push] at listed
    rcases List.mem_append.mp listed with older | newer
    · exact admitted.held id older
    · exact held id (List.mem_singleton.mp newer).symm
  paired := by
    have kept := admitted.paired
    rw [admitted.entries_push, List.count_append, List.countP_append]
    simp only [List.count_singleton, beq_iff_eq, named, if_false]
    omega

/-- A slot that is merely counted is followed by that of a type. -/
theorem push_type (admitted : Admitted graph table) (id : TypeId) :
    Admitted graph ((table.push .unnamed).2.push (.type id)).2 := by
  have unlimited : (table.push .unnamed).2.limit = none :=
    (table.limit_push .unnamed).trans admitted.unlimited
  have entries : ((table.push .unnamed).2.push (.type id)).2.entries =
      table.entries ++ [.unnamed, .type id] := by
    simp [Table.entries_push, Table.isFull, unlimited, admitted.unlimited]
  refine ⟨(Table.limit_push _ _).trans unlimited, ?_, ?_⟩
  · intro other listed
    rw [entries] at listed
    simpa using admitted.held other (by simpa using listed)
  · have kept := admitted.paired
    rw [entries, List.count_append, List.countP_append]
    simpa [Component.isType] using kept

end Admitted

namespace Writes

open Discipline (Later Valid Written Ended Ends)

variable {base : Session graph (Table Component)} {component : Component}
variable {computation : Encoder graph (List Token)}

theorem later_push (session : Session graph (Table Component)) (component : Component) :
    (discipline graph).Later session
      { session with tables := (session.tables.push component).2 } := by
  refine ⟨le_rfl, fun token allowed slot same => (allowed slot same).trans_le ?_⟩
  exact (Table.entries_prefix_push session.tables component).length_le

theorem store (named : component ≠ .unnamed)
    (held : ∀ id, component = .symbol id → graph.Holds (.symbol id)) :
    (discipline graph).Ends base (Itanium.store component) fun _ _ => True :=
  fun session _ valid => .ok (later_push session component)
    ⟨valid.sound, valid.modest, valid.admitted.push named held⟩ trivial

theorem orBackRef (writes : Writes base computation) :
    Writes base (Itanium.orBackRef component computation) := by
  intro session within valid
  rw [run_orBackRef_eq]
  cases found : session.tables.find? component with
  | none => exact writes session within valid
  | some slot =>
      obtain ⟨inside, -, -⟩ := Table.find?_eq_some_iff.mp found
      exact .ok (.refl session) valid (by simpa [Table.size] using inside)

theorem thenStore (named : component ≠ .unnamed)
    (held : ∀ id, component = .symbol id → graph.Holds (.symbol id))
    (writes : Writes base computation) : Writes base (Itanium.thenStore component computation) :=
  writes.bind fun _ _ _ _ written => (store named held).bind fun _ _ grown _ _ =>
    .pure fun _ further _ => written.mono (grown.trans further)

theorem storeThen (named : component ≠ .unnamed)
    (held : ∀ id, component = .symbol id → graph.Holds (.symbol id))
    (writes : Writes base computation) : Writes base (Itanium.storeThen component computation) :=
  (store named held).bind fun _ _ grown _ _ => writes.mono grown

theorem compound {id : TypeId} (writes : Writes base computation) :
    Writes base (Itanium.compound id computation) :=
  orBackRef (thenStore (by simp) (by simp) writes)

/-- A type that may take a slot for what is below it as well as its own. -/
theorem storeIf_store (condition : Bool) (id : TypeId) :
    (discipline graph).Ends base (storeIf condition .unnamed >>= fun _ => Itanium.store (.type id))
      fun _ _ => True := by
  cases condition with
  | false =>
      have alone : (discipline graph).Ends base (Itanium.store (.type id)) fun _ _ => True :=
        store (by simp) (by simp)
      simpa only [storeIf, Bool.false_eq_true, if_false, pure_bind] using alone
  | true =>
      -- The slots are taken at once: between them the table counts one that no type is next to.
      intro session _ valid
      refine .ok ((later_push session .unnamed).trans (later_push _ (.type id))) ?_ trivial
      exact ⟨valid.sound, valid.modest, valid.admitted.push_type id⟩

end Writes

/-! ## Names -/

/-- Whatever stands for the item, it is written to an end. -/
def Completes (parts : Encoding graph) : Item → Prop
  | .scope id => ∀ base, Writes base (parts.scope id)
  | .argument owner arg => ∀ base, Writes base (parts.argument owner arg)
  | .type tree place => ∀ (base : Session graph (Table Component)) id,
      base.overlay.Unfolds id tree → Writes base (parts.type id place)

namespace Completes

open Discipline (Written Ends)

variable {parts : Encoding graph} {machine : Target} {base : Session graph (Table Component)}
variable {id : SymbolId}

theorem arguments (formed : graph.WellFormed) {owner : SymbolId}
    (heldOwner : graph.Holds (.symbol owner)) {args : List TemplateArg}
    (held : TemplateArg.Each graph.Holds args)
    (completes : ∀ part ∈ LinkName.Item.ofArguments owner args, Completes parts part) :
    Writes base (Itanium.arguments parts owner args) := by
  induction args generalizing base with
  | nil => exact .pure fun _ _ _ => .nil
  | cons first rest ih =>
      have general (head : Completes parts (.argument owner first))
          (tail : ∀ part ∈ LinkName.Item.ofArguments owner rest, Completes parts part) :
          Writes base (do
            return (← parts.argument owner first) ++ (← Itanium.arguments parts owner rest)) :=
        (head base).join (fun later _ => ih held.tail tail) fun _ _ _ written also => by
          simp [written, also]
      cases first with
      | pack inner =>
          cases rest with
          | nil =>
              have each : ∀ arg ∈ inner, Writes base (parts.argument owner arg) := fun arg listed =>
                completes _ (List.mem_append_left _ (List.mem_map_of_mem listed)) base
              exact (Ends.concat each).wrap fun _ _ written => by simp [written]
          | cons second rest => exact .refuseArgument formed heldOwner held.head .packNotLast
      | _ =>
          obtain ⟨head, tail⟩ := List.forall_mem_cons.mp completes
          exact general head tail

theorem sourceName (formed : graph.WellFormed) (held : graph.Holds (.symbol id))
    (completes : ∀ part ∈ LinkName.Item.ofName graph id, Completes parts part) :
    Writes base (Itanium.sourceName parts id) := by
  obtain ⟨⟨ident, parent, access, sort⟩, stored⟩ := Graph.holds_symbol_iff.mp held
  simp only [Itanium.sourceName, Encoder.symbol_eq_pure stored, pure_bind]
  cases sort with
  | specialization template args =>
      have heldTemplate : graph.Holds (.symbol template) :=
        formed.closed _ _ (Graph.mentions_template stored rfl)
      have general : Writes base (Itanium.orBackRef (.symbol template)
          (Itanium.storeThen (.symbol template) (pure [.source ident]))) :=
        .orBackRef (.storeThen (by simp) (by rintro other ⟨⟩; exact heldTemplate)
          (.pure fun _ _ _ => by simp))
      simp only [LinkName.Item.ofName, stored] at completes
      refine general.join (fun later _ => ?_) fun _ _ _ written also => by simp [written, also]
      exact arguments formed held (formed.holds_args stored rfl) completes
  | _ => exact .pure fun _ _ _ => by simp

theorem enclosing {level : Level} {outer : SymbolId} (completes : Completes parts (.scope outer)) :
    Writes base (Itanium.enclosing parts level outer) := by
  have known : (discipline graph).Ends base (impliesScope level) fun _ _ => True := by
    unfold impliesScope
    split
    · exact fun session _ valid => .ok (.refl session) valid trivial
    · exact .pure fun _ _ _ => trivial
  refine known.bind fun later implied _ _ _ => ?_
  cases implied with
  | true => exact .pure fun _ _ _ => .nil
  | false => exact completes later

/-- What the two forms of a qualified name have in common. -/
theorem levelName (formed : graph.WellFormed) {level : Level}
    (held : graph.Holds (.symbol level.name)) {outer : SymbolId} (scope : level.scope = some outer)
    (completes : ∀ part ∈ Item.ofLevel graph level, Completes parts part)
    {whole : List Token → List Token → List Token}
    (kept : ∀ (last : Session graph (Table Component)) before after,
      (discipline graph).Written last before → (discipline graph).Written last after →
        (discipline graph).Written last (whole before after)) :
    Writes base (do
      return whole (← Itanium.enclosing parts level outer)
        (← Itanium.sourceName parts level.name)) := by
  simp only [Item.ofLevel, scope, Option.toList_some, List.map_cons, List.map_nil,
    List.cons_append, List.nil_append] at completes
  obtain ⟨outside, inside⟩ := List.forall_mem_cons.mp completes
  exact (enclosing outside).join (fun later _ => sourceName formed held inside) kept

theorem scopeName (formed : graph.WellFormed) (held : graph.Holds (.symbol id))
    (completes : ∀ part ∈ Item.ofMention graph id, Completes parts part) :
    Writes base (Itanium.scopeName parts id) := by
  obtain ⟨level, found⟩ := formed.level_eq_ok held
  have isLevel := Graph.isLevel_of_level found
  have heldName := isLevel.holds_name formed held
  simp only [Item.ofMention, found] at completes
  refine .orBackRef (.storeThen (by simp) (by rintro other ⟨⟩; exact held) ?_)
  simp only [found, Encoder.ofExcept, pure_bind]
  cases scope : level.scope with
  | none => exact sourceName formed heldName fun part listed =>
      completes part (List.mem_append_right _ listed)
  | some outer =>
      exact levelName formed heldName scope completes fun _ _ _ written also => by
        simp [written, also]

theorem qualifiedName (formed : graph.WellFormed) (held : graph.Holds (.symbol id))
    (completes : ∀ part ∈ Item.ofMention graph id, Completes parts part) :
    Writes base (Itanium.qualifiedName parts id) := by
  obtain ⟨level, found⟩ := formed.level_eq_ok held
  have isLevel := Graph.isLevel_of_level found
  have heldName := isLevel.holds_name formed held
  simp only [Item.ofMention, found] at completes
  simp only [Itanium.qualifiedName, found, Encoder.ofExcept, pure_bind]
  cases scope : level.scope with
  | none => exact sourceName formed heldName fun part listed =>
      completes part (List.mem_append_right _ listed)
  | some outer =>
      exact levelName formed heldName scope completes fun _ _ _ written also => by
        simp [written, also]

theorem mention (formed : graph.WellFormed) (held : graph.Holds (.symbol id))
    (completes : ∀ part ∈ Item.ofMention graph id, Completes parts part) :
    Writes base (Itanium.mention parts id) :=
  .orBackRef (.thenStore (by simp) (by rintro other ⟨⟩; exact held)
    (qualifiedName formed held completes))

/-! ## Types -/

theorem withoutConst (formed : graph.WellFormed) {id : TypeId} {tree : TypeTree}
    (unfolds : base.overlay.Unfolds id tree) :
    (discipline graph).Ends base (Itanium.withoutConst id) fun last other =>
      last.overlay.Unfolds other tree.withoutConst := by
  refine .of_valid fun later grown valid => ?_
  have unfolds := unfolds.mono grown.overlay
  obtain ⟨node, part, found, same, -⟩ := unfolds.found
  have drops : tree.dropsConst = node.dropsConst := by rw [same, TypeNode.dropsConst_tree]
  unfold TypeTree.withoutConst
  rw [drops]
  refine .type_bind found ?_
  cases dropped : node.dropsConst with
  | false => exact .pure fun last further _ => unfolds.mono further.overlay
  | true =>
      have listed := valid.modest.mem_of_isConst found (TypeNode.isConst_of_dropsConst dropped)
      exact .mutableOf formed unfolds found listed

theorem parameter (formed : graph.WellFormed) {param : Param} {tree : TypeTree}
    (held : graph.Holds (.type param.type)) (unfolds : base.overlay.Unfolds param.type tree)
    (completes : Completes parts
      (.type (TypeTree.passed (param.passing, tree)).withoutConst .outermost)) :
    Writes base (Itanium.parameter parts param) :=
  (Ends.passed formed held unfolds).bind fun _ _ _ _ passed =>
    (withoutConst formed passed).bind fun later other _ _ bare => completes later other bare

theorem parameters (formed : graph.WellFormed) {signature : Signature} {part : TypeId → TypeTree}
    (held : ∀ param ∈ signature.params, graph.Holds (.type param.type))
    (unfolds : ∀ param ∈ signature.params, base.overlay.Unfolds param.type (part param.type))
    (completes : ∀ item ∈ Item.ofParameters
      (signature.params.map fun param => (param.passing, part param.type)), Completes parts item) :
    Writes base (Itanium.parameters parts signature) := by
  have each : ∀ param ∈ signature.params, Writes base (Itanium.parameter parts param) :=
    fun param listed => parameter formed (held param listed) (unfolds param listed)
      (completes _ (List.mem_map.mpr ⟨_, List.mem_map_of_mem listed, rfl⟩))
  refine (Ends.concat each).wrap fun last tokens written => Written.append_iff.mpr ⟨written, ?_⟩
  unfold parameterEnd
  cases signature.variadic <;> cases signature.params.isEmpty <;> simp

theorem layer {id inner : TypeId} {tree : TypeTree} (unfolds : base.overlay.Unfolds inner tree)
    (completes : Completes parts (.type tree .nested)) (lead : List Token)
    (plain : ∀ last : Session graph (Table Component), (discipline graph).Written last lead) :
    Writes base (Itanium.compound id do return lead ++ (← parts.type inner .nested)) :=
  .compound ((completes base inner unfolds).wrap fun last _ written =>
    Written.append_iff.mpr ⟨plain last, written⟩)

theorem written_constMark (node : TypeNode) (last : Session graph (Table Component)) :
    (discipline graph).Written last (constMark node) := by
  unfold constMark
  split <;> simp

theorem functionType (formed : graph.WellFormed) {id : TypeId} {signature : Signature}
    {part : TypeId → TypeTree}
    (held : ∀ other ∈ (TypeForm.function signature).parts, graph.Holds (.type other))
    (unfolds : ∀ other ∈ (TypeForm.function signature).parts,
      base.overlay.Unfolds other (part other))
    (completes : ∀ item ∈ Item.ofType graph (TypeNode.tree part { form := .function signature }),
      Completes parts item) :
    Writes base (Itanium.functionType parts id signature) := by
  obtain ⟨heldResult, heldParams⟩ := List.forall_mem_cons.mp held
  obtain ⟨unfoldsResult, unfoldsParams⟩ := List.forall_mem_cons.mp unfolds
  obtain ⟨result, params⟩ := List.forall_mem_cons.mp completes
  refine .compound ((Ends.returned heldResult unfoldsResult).bind
    fun later other grown _ returned => ?_)
  refine (result later other returned).join (fun last further => ?_) fun _ _ _ written also => by
    split <;> simp [written, also]
  exact parameters formed (fun param listed => heldParams _ (List.mem_map_of_mem listed))
    (fun param listed => (unfoldsParams _ (List.mem_map_of_mem listed)).mono
      (grown.trans further).overlay) params

theorem basicType {id : TypeId} {node : TypeNode} {basic : BasicType} :
    Writes base (Itanium.basicType machine id node basic) := by
  have tokens : Writes base (pure (constMark node ++ [.text (builtin machine basic)])) :=
    .pure fun last _ _ => by simp [written_constMark]
  unfold Itanium.basicType
  split
  · exact .orBackRef (.storeThen (by simp) (by simp) tokens)
  · exact tokens

theorem namedType (formed : graph.WellFormed) {id : TypeId} {node : TypeNode} {symbol : SymbolId}
    (held : graph.Holds (.symbol symbol))
    (completes : ∀ part ∈ Item.ofMention graph symbol, Completes parts part) :
    Writes base (Itanium.namedType parts id node symbol) := by
  have stored (later : Session graph (Table Component)) :
      (discipline graph).Ends later (storeIf node.isConst (.type id)) fun _ _ => True := by
    unfold storeIf
    split
    · exact Writes.store (by simp) (by simp)
    · exact .pure fun _ _ _ => trivial
  refine .orBackRef ((mention formed held completes).bind fun later name _ _ written => ?_)
  refine (stored later).bind fun last _ grown _ _ => ?_
  exact .pure fun _ further _ => by simp [written_constMark, written.mono (grown.trans further)]

theorem classType (formed : graph.WellFormed) {id : TypeId} {node : TypeNode} {symbol : SymbolId}
    {place : Place} (held : graph.Holds (.symbol symbol))
    (completes : ∀ part ∈ Item.ofMention graph symbol, Completes parts part) :
    Writes base (Itanium.classType parts id node symbol place) := by
  refine .orBackRef ?_
  simp only [Itanium.thenStore, bind_assoc, pure_bind]
  refine (mention formed held completes).bind fun later name _ _ written => ?_
  rw [← bind_assoc]
  refine (Writes.storeIf_store node.isConst id).bind fun last _ grown _ _ => ?_
  refine .pure fun final further _ => ?_
  have outer : (discipline graph).Written final
      (if place = .nested then constMark node else []) := by
    split <;> simp [written_constMark]
  simp [outer, written_constMark, written.mono (grown.trans further)]

theorem writes_type (formed : graph.WellFormed) {id : TypeId} {tree : TypeTree} {place : Place}
    (unfolds : base.overlay.Unfolds id tree)
    (completes : ∀ part ∈ Item.ofType graph tree, Completes parts part) :
    Writes base (Itanium.type machine parts id place) := by
  refine .of_valid fun base grown valid => ?_
  have unfolds := unfolds.mono grown.overlay
  obtain ⟨⟨form, quals⟩, part, found, rfl, inside⟩ := unfolds.found
  have named : ∀ symbol ∈ form.symbol?, graph.Holds (.symbol symbol) :=
    fun symbol mentioned => valid.sound.symbol_held formed found mentioned
  refine .type_bind found (.demand_bind (.refuseType formed unfolds .foreignQualifiers) ?_)
  cases form with
  | basic basic => exact basicType
  | pointer target | reference target | vector target | staticArray _ target =>
      exact layer (inside target List.mem_cons_self) (completes _ List.mem_cons_self) _
        fun last => by simp [written_constMark]
  | function signature =>
      exact functionType formed (valid.modest.holds_part formed found) inside completes
  | record symbol | enumeration symbol _ => exact namedType formed (named symbol rfl) completes
  | classRef symbol => exact classType formed (named symbol rfl) completes
  | dynamicArray _ | assocArray _ _ | delegate _ | typedef _ =>
      exact .refuseType formed unfolds .noCounterpart

/-! ## Declarations -/

theorem variableName (formed : graph.WellFormed) (asArgument : Bool) {symbol : Symbol}
    {info : VariableInfo} (stored : graph.symbol id = .ok symbol) (sort : symbol.sort = .var info)
    (completes : ∀ part ∈ Item.ofDeclaration graph id, Completes parts part) :
    Writes base (Itanium.variableName machine parts asArgument id) := by
  have held : graph.Holds (.symbol id) := Graph.holds_symbol_iff.mpr ⟨symbol, stored⟩
  obtain ⟨scope, found⟩ := formed.scopeParent_eq_ok held
  simp only [Item.ofDeclaration, Item.ofScope, found, List.append_assoc] at completes
  obtain ⟨outside, inside⟩ := List.forall_mem_append.mp completes
  have own (later : Session graph (Table Component)) : Writes later (Itanium.sourceName parts id) :=
    sourceName formed held (List.forall_mem_append.mp inside).1
  simp only [Itanium.variableName, Encoder.symbol_eq_pure stored, pure_bind, sort,
    Encoder.scopeParent_eq_pure found]
  refine .demand_bind (.refuseStorage formed held) ?_
  cases scope with
  | some outer =>
      exact (outside _ List.mem_cons_self base).join (fun later _ => own later)
        fun _ _ _ written also => by simp [written, also]
  | none =>
      cases asArgument with
      | true => exact (own base).wrap fun _ _ written => by simp [written]
      | false =>
          refine .pure fun last _ _ => ?_
          unfold freeVariable
          split <;> simp

theorem functionPath (formed : graph.WellFormed) {info : FunctionInfo}
    (held : graph.Holds (.symbol id))
    (completes : ∀ part ∈ Item.ofDeclaration graph id, Completes parts part) :
    Writes base (Itanium.functionPath parts info id) := by
  obtain ⟨scope, found⟩ := formed.scopeParent_eq_ok held
  simp only [Item.ofDeclaration, Item.ofScope, found, List.append_assoc] at completes
  obtain ⟨outside, inside⟩ := List.forall_mem_append.mp completes
  have source (later : Session graph (Table Component)) :
      Writes later (Itanium.sourceName parts id) :=
    sourceName formed held (List.forall_mem_append.mp inside).1
  have own (later : Session graph (Table Component)) : Writes later (ownName parts info id) := by
    unfold ownName
    split
    · exact .pure fun _ _ _ => by simp
    · exact source later
  simp only [Itanium.functionPath, Encoder.scopeParent_eq_pure found, pure_bind]
  cases scope with
  | none => exact source base
  | some outer =>
      exact (outside _ List.mem_cons_self base).join (fun later _ => own later)
        fun _ _ _ written also => by split <;> simp [written, also]

theorem functionName (formed : graph.WellFormed) {symbol : Symbol} {info : FunctionInfo}
    (stored : graph.symbol id = .ok symbol) (sort : symbol.sort = .function info)
    (completes : ∀ part ∈ Item.ofDeclaration graph id, Completes parts part) :
    Writes base (Itanium.functionName machine parts id) := by
  have held : graph.Holds (.symbol id) := Graph.holds_symbol_iff.mpr ⟨symbol, stored⟩
  have heldType := formed.closed _ _ (Graph.mentions_function stored sort)
  have unfolds := formed.unfolds_tree heldType base.overlay
  simp only [Itanium.functionName, Encoder.symbol_eq_pure stored, pure_bind, sort]
  refine .of_valid fun base grown valid => ?_
  have unfolds := unfolds.mono grown.overlay
  refine .signature_bind formed unfolds fun signature quals found => ?_
  have heldParts := valid.modest.holds_part formed found
  obtain ⟨node, part, found', same, inside⟩ := unfolds.found
  obtain rfl := Except.ok.inj (found.symm.trans found')
  split
  · have listed : ∀ item ∈ Item.ofParameters
        (signature.params.map fun param => (param.passing, part param.type)),
          Completes parts item := by
      intro item listed
      refine completes item (List.mem_append_right _ ?_)
      rcases symbol with ⟨ident, parent, access, kind⟩
      obtain rfl : kind = .function info := sort
      simp only [Item.ofSignature, stored, same]
      exact listed
    refine (functionPath formed held completes).join (fun later further => ?_)
      fun _ _ _ written also => by simp [written, also]
    exact parameters formed
      (fun param listed => heldParts _ (List.mem_cons_of_mem _ (List.mem_map_of_mem listed)))
      (fun param listed => (inside _ (List.mem_cons_of_mem _
        (List.mem_map_of_mem listed))).mono further.overlay) listed
  · have source : Writes base (Itanium.sourceName parts id) := sourceName formed held
      fun part listed => completes part
        (List.mem_append_left _ (List.mem_append_right _ listed))
    exact source.wrap fun _ _ written => by simp [written]

/-! ## Arguments -/

theorem value {owner : SymbolId} {type : TypeId} {number : Int} {tree : TypeTree}
    (unfolds : base.overlay.Unfolds type tree)
    (refused : Writes base (Encoder.refuseArgument owner (.value type number) .notIntegral))
    (completes : Completes parts (.type tree .nested)) :
    Writes base (Itanium.argument machine parts owner (.value type number)) := by
  obtain ⟨node, part, found, -, -⟩ := unfolds.found
  refine .type_bind found ?_
  cases node.form.integral? with
  | none => exact refused
  | some basic =>
      refine (completes base type unfolds).wrap fun _ _ written => ?_
      unfold literal
      dsimp only
      split <;> simp [written]

theorem symbolAlias (formed : graph.WellFormed) {owner target : SymbolId}
    (held : graph.Holds (.symbol target))
    (refused : Writes base (Encoder.refuseArgument owner (.symbolAlias target) .aliasTarget))
    (declared : ∀ part ∈ Item.ofDeclaration graph target, Completes parts part)
    (mentioned : ∀ part ∈ Item.ofMention graph target, Completes parts part) :
    Writes base (Itanium.argument machine parts owner (.symbolAlias target)) := by
  obtain ⟨symbol, stored⟩ := Graph.holds_symbol_iff.mp held
  simp only [Itanium.argument, Encoder.symbol_eq_pure stored, pure_bind]
  cases sort : symbol.sort with
  | function info =>
      obtain ⟨scope, found⟩ := formed.scopeParent_eq_ok held
      have unfolds := formed.unfolds_tree
        (formed.closed _ _ (Graph.mentions_function stored sort)) base.overlay
      refine .signature_bind formed unfolds fun signature quals _ => ?_
      simp only [Encoder.scopeParent_eq_pure found, pure_bind]
      exact (functionName formed stored sort declared).wrap fun _ _ written => by
        split <;> simp [written]
  | var info =>
      exact (variableName formed true stored sort declared).wrap fun _ _ written => by
        simp [written]
  | template member =>
      cases member with
      | none => exact refused
      | some member => exact mention formed held mentioned
  | _ => exact refused

theorem writes_argument (formed : graph.WellFormed) {owner : SymbolId} {arg : TemplateArg}
    (heldOwner : graph.Holds (.symbol owner)) (held : graph.HoldsArg arg)
    (completes : ∀ part ∈ Item.parts graph (.argument owner arg), Completes parts part) :
    Writes base (Itanium.argument machine parts owner arg) := by
  have refused (reason : ArgumentReason) :
      Writes base (Encoder.refuseArgument owner arg reason) :=
    .refuseArgument formed heldOwner held reason
  cases arg with
  | type id => exact completes _ List.mem_cons_self base id (formed.unfolds_tree (held _ rfl) _)
  | typeAlias id => exact refused .aliasTarget
  | pack args => exact refused .nestedPack
  | value id number =>
      exact value (formed.unfolds_tree (held _ rfl) _) (refused .notIntegral)
        (completes _ List.mem_cons_self)
  | symbolAlias target =>
      obtain ⟨declared, mentioned⟩ := List.forall_mem_append.mp completes
      exact symbolAlias formed (held _ rfl) (refused .aliasTarget) declared mentioned

end Completes

/-! ## Whole names -/

/-- Where an item needs less than the depth, it is written to an end. -/
theorem completes_encoding (formed : graph.WellFormed) (order : graph.Order) (machine : Target)
    (depth : Nat) {item : Item} (held : item.Held graph) (deep : item.need order < depth) :
    Completes (encoding machine depth : Encoding graph) item := by
  induction depth generalizing item with
  | zero => exact absurd deep (Nat.not_lt_zero _)
  | succ depth ih =>
      -- A part needs less than the item, and so it has enough in what is left of the depth.
      have parts : ∀ part ∈ Item.parts graph item,
          Completes (encoding machine depth : Encoding graph) part := by
        intro part listed
        obtain ⟨heldPart, less⟩ := Item.below_parts formed order held part listed
        exact ih heldPart (by omega)
      cases item with
      | scope id => exact fun base => Completes.scopeName formed held parts
      | argument owner arg => exact fun base => Completes.writes_argument formed held.1 held.2 parts
      | type tree place => exact fun base id unfolds => Completes.writes_type formed unfolds parts

theorem writes_encode (formed : graph.WellFormed) (machine : Target) {id : SymbolId}
    (held : graph.Holds (.symbol id)) (base : Session graph (Table Component)) :
    Writes base (encode machine id) := by
  obtain ⟨symbol, stored⟩ := Graph.holds_symbol_iff.mp held
  have order := formed.order
  have parts : ∀ part ∈ Item.ofDeclaration graph id,
      Completes (encoding machine (Encoder.depthBound graph) : Encoding graph) part := by
    intro part listed
    obtain ⟨heldPart, less⟩ := Item.below_ofDeclaration formed order id part listed
    exact completes_encoding formed order machine _ heldPart
      (less.trans_le (Encoder.rank_le_depthBound order held))
  simp only [encode, Encoder.symbol_eq_pure stored, pure_bind]
  cases sort : symbol.sort with
  | function info => exact Completes.functionName formed stored sort parts
  | var info => exact Completes.variableName formed false stored sort parts
  | _ => exact .refuseSymbol formed stored

/-! ## The size of the table -/

/-- A type that has a slot has a handle. -/
theorem Orderly.index_lt {session : Session graph (Table Component)} (orderly : Orderly session)
    {id : TypeId} (listed : .type id ∈ session.tables.entries) :
    id.index < graph.types.length + session.overlay.derived.length := by
  obtain ⟨table, -, reads⟩ := orderly.read
  obtain ⟨slot, inside, same⟩ := List.getElem_of_mem listed
  have read := (List.forall₂_iff_get.mp reads).2 slot inside (reads.length_eq ▸ inside)
  rw [List.get_eq_getElem, same] at read
  generalize table.entries.get _ = key at read
  cases read with
  | type unfolds => exact unfolds.index_lt

/-- The components of types up to a number of them. -/
def typeComponents (number : Nat) : List Component :=
  (List.range number).map fun index => .type ⟨index⟩

section

variable {session : Session graph (Table Component)} (orderly : Orderly session)
include orderly

theorem mem_typeComponents {id : TypeId} (listed : .type id ∈ session.tables.entries) :
    .type id ∈ typeComponents (graph.types.length + session.overlay.derived.length) :=
  List.mem_map.mpr ⟨id.index, List.mem_range.mpr (orderly.index_lt listed), rfl⟩

theorem countP_isType_le : session.tables.entries.countP Component.isType ≤
    graph.types.length + session.overlay.derived.length := by
  have distinct : (session.tables.entries.filter Component.isType).Nodup :=
    orderly.once.sublist (List.monotone_filter_right _ (by
      rintro (_ | _ | _) <;> simp [Component.isType]))
  have inside : session.tables.entries.filter Component.isType ⊆
      typeComponents (graph.types.length + session.overlay.derived.length) := by
    intro component listed
    obtain ⟨stored, typed⟩ := List.mem_filter.mp listed
    cases component with
    | type id => exact mem_typeComponents orderly stored
    | symbol | unnamed => cases typed
  rw [List.countP_eq_length_filter]
  simpa [typeComponents] using (distinct.subperm inside).length_le

theorem length_named_le (valid : (discipline graph).Valid session) :
    (session.tables.entries.filter (· ≠ .unnamed)).length ≤
      graph.symbols.length + (graph.types.length + session.overlay.derived.length) := by
  have inside : session.tables.entries.filter (· ≠ .unnamed) ⊆
      (List.range graph.symbols.length).map (fun index => .symbol ⟨index⟩) ++
        typeComponents (graph.types.length + session.overlay.derived.length) := by
    intro component listed
    obtain ⟨stored, named⟩ := List.mem_filter.mp listed
    refine List.mem_append.mpr ?_
    cases component with
    | symbol id =>
        exact .inl (List.mem_map.mpr
          ⟨id.index, List.mem_range.mpr (valid.admitted.held id stored), rfl⟩)
    | type id => exact .inr (mem_typeComponents orderly stored)
    | unnamed => simp at named
  simpa [typeComponents] using (orderly.once.subperm inside).length_le

/-- There is a slot at most for each symbol and ten for each type: each type of the graph and its
four derived types may take one for itself and one for what is below it. -/
theorem size_le (valid : (discipline graph).Valid session) :
    session.tables.size ≤ graph.symbols.length + 10 * graph.types.length := by
  have derived := valid.modest.length_le valid.sound
  have paired := valid.admitted.paired
  have types := countP_isType_le orderly
  have named := length_named_le orderly valid
  have split : session.tables.entries.length =
      session.tables.entries.count .unnamed +
        (session.tables.entries.filter (· ≠ .unnamed)).length := by
    rw [List.length_eq_countP_add_countP (· == Component.unnamed), ← List.countP_eq_length_filter]
    simp [List.count]
  unfold Table.size
  omega

end

end LinkName.Itanium
