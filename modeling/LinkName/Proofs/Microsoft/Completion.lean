import LinkName.Proofs.Completion
import LinkName.Proofs.Graph.Width
import LinkName.Proofs.Microsoft.Parts
import LinkName.Proofs.Microsoft.Refinement

/-!
How Microsoft names end. Neither table outgrows its limit, so a back-reference is a digit; and where
everything in the graph has the width that is set aside for it, no number has more than 128 bits.
-/
namespace LinkName

namespace Microsoft

variable {graph : Graph} {limit : Nat}

/-- Back-references stay below a limit, and numbers are not too wide unless the graph is. -/
def Token.Small (graph : Graph) (limit : Nat) : Token → Prop
  | .nameRef index | .typeRef index => index < limit
  | .number value => graph.Representable → value < 2 ^ 128
  | .text _ | .ident _ => True

structure Tables.Bounded (limit : Nat) (tables : Tables) : Prop where
  names : tables.names.Bounded limit
  types : tables.types.Bounded limit

def discipline (graph : Graph) (limit : Nat) : Discipline Tables Token where
  admits := Tables.Bounded limit
  allows _ token := token.Small graph limit

abbrev Writes (limit : Nat) (base : Session graph Tables)
    (computation : Encoder graph (List Token)) : Prop :=
  (discipline graph limit).Writes base computation

@[simp] theorem allows_text {tables : Tables} {written : String} :
    (discipline graph limit).allows tables (.text written) := trivial

@[simp] theorem allows_ident {tables : Tables} {written : String} :
    (discipline graph limit).allows tables (.ident written) := trivial

@[simp] theorem allows_number {tables : Tables} {value : Nat} :
    (discipline graph limit).allows tables (.number value) ↔
      (graph.Representable → value < 2 ^ 128) := Iff.rfl

@[simp] theorem allows_nameRef {tables : Tables} {index : Nat} :
    (discipline graph limit).allows tables (.nameRef index) ↔ index < limit := Iff.rfl

@[simp] theorem allows_typeRef {tables : Tables} {index : Nat} :
    (discipline graph limit).allows tables (.typeRef index) ↔ index < limit := Iff.rfl

/-! ## Tables -/

namespace Writes

open Discipline (Later Ends Written)

variable {base : Session graph Tables} {computation : Encoder graph (List Token)}

theorem findOrInsertType (id : TypeId) :
    (discipline graph limit).Ends base (Microsoft.findOrInsertType id : Encoder graph (Option Nat))
      fun _ found => ∀ index ∈ found, index < limit := by
  intro session _ valid
  obtain ⟨kept, inside⟩ := valid.admitted.types.findOrInsert id
  exact .ok ⟨le_rfl, fun _ allowed => allowed⟩
    ⟨valid.sound, valid.modest, ⟨valid.admitted.names, kept⟩⟩ inside

theorem findOrInsertName (key : List Char) :
    (discipline graph limit).Ends base (Microsoft.findOrInsertName key : Encoder graph (Option Nat))
      fun _ found => ∀ index ∈ found, index < limit := by
  intro session _ valid
  obtain ⟨kept, inside⟩ := valid.admitted.names.findOrInsert key
  exact .ok ⟨le_rfl, fun _ allowed => allowed⟩
    ⟨valid.sound, valid.modest, ⟨kept, valid.admitted.types⟩⟩ inside

theorem recordName (key : List Char) :
    (discipline graph limit).Ends base (Microsoft.recordName key : Encoder graph Unit)
      fun _ _ => True := by
  intro session _ valid
  have kept := valid.admitted.names.insertUnique key
  exact .ok ⟨le_rfl, fun _ allowed => allowed⟩
    ⟨valid.sound, valid.modest, ⟨kept, valid.admitted.types⟩⟩ trivial

theorem orTypeRef {id : TypeId} {place : Place} (writes : Writes limit base computation) :
    Writes limit base (Microsoft.orTypeRef id place computation) := by
  unfold Microsoft.orTypeRef
  split
  · exact writes
  · refine (findOrInsertType id).bind fun later found grown _ inside => ?_
    cases found with
    | none => exact writes.mono grown
    | some index => exact .pure fun _ _ _ => by simpa using inside

theorem orNameRef {spelledOut : Bool} {level : List Token}
    (written : (discipline graph limit).Written base level) :
    Writes limit base (Microsoft.orNameRef spelledOut level) := by
  have whole (last : Session graph Tables) (grown : (discipline graph limit).Later base last) :
      (discipline graph limit).Written last (level ++ [.text "@"]) := by
    simp [written.mono grown]
  unfold Microsoft.orNameRef
  cases spelledOut with
  | true =>
      refine (recordName _).bind fun later _ grown _ _ => ?_
      exact .pure fun last further _ => whole last (grown.trans further)
  | false =>
      refine (findOrInsertName _).bind fun later found grown _ inside => ?_
      cases found with
      | none => exact .pure fun last further _ => whole last (grown.trans further)
      | some index => exact .pure fun _ _ _ => by simpa using inside

end Writes

/-! ## Names -/

/-- Whatever stands for the item, it is written to an end. -/
def Completes (limit : Nat) (parts : Encoding graph) : Item → Prop
  | .scope id => ∀ base, Writes limit base (parts.scope id)
  | .argument owner arg => ∀ base, Writes limit base (parts.argument owner arg)
  | .type tree place => ∀ (base : Session graph Tables) id, base.overlay.Unfolds id tree →
      Writes limit base (parts.type id place)

namespace Completes

open Discipline (Written Ends Later)

variable {parts : Encoding graph} {machine : Target} {base : Session graph Tables} {id : SymbolId}

theorem arguments (formed : graph.WellFormed) {owner : SymbolId}
    (heldOwner : graph.Holds (.symbol owner)) {args : List TemplateArg}
    (held : TemplateArg.Each graph.Holds args)
    (completes : ∀ part ∈ LinkName.Item.ofArguments owner args, Completes limit parts part) :
    Writes limit base (Microsoft.arguments parts owner args) := by
  induction args generalizing base with
  | nil => exact .pure fun _ _ _ => .nil
  | cons first rest ih =>
      have general (head : Completes limit parts (.argument owner first))
          (tail : ∀ part ∈ LinkName.Item.ofArguments owner rest, Completes limit parts part) :
          Writes limit base (do
            return (← parts.argument owner first) ++ (← Microsoft.arguments parts owner rest)) :=
        (head base).join (fun later _ => ih held.tail tail) fun _ _ _ written also => by
          simp [written, also]
      cases first with
      | pack inner =>
          cases rest with
          | nil => exact .concat fun arg listed =>
              completes _ (List.mem_append_left _ (List.mem_map_of_mem listed)) base
          | cons second rest => exact .refuseArgument formed heldOwner held.head .packNotLast
      | _ =>
          obtain ⟨head, tail⟩ := List.forall_mem_cons.mp completes
          exact general head tail

theorem repeatedScope {symbol : Symbol}
    (completes : ∀ part ∈ symbol.parent.toList.map LinkName.Item.scope,
      Completes limit parts part) :
    Writes limit base (Microsoft.repeatedScope machine parts symbol) := by
  unfold Microsoft.repeatedScope
  split
  · next parent scope =>
    split
    · exact completes (.scope parent) (by simp [scope]) base
    · exact .pure fun _ _ _ => .nil
  · exact .pure fun _ _ _ => .nil

theorem levelName (formed : graph.WellFormed) (spelledOut : Bool)
    (held : graph.Holds (.symbol id))
    (completes : ∀ part ∈ Item.ofLevel graph id, Completes limit parts part) :
    Writes limit base (Microsoft.levelName machine parts spelledOut id) := by
  obtain ⟨⟨ident, parent, access, sort⟩, stored⟩ := Graph.holds_symbol_iff.mp held
  have plain : Writes limit base (Microsoft.orNameRef spelledOut [.ident ident]) :=
    .orNameRef (by simp)
  simp only [Item.ofLevel, stored] at completes
  obtain ⟨outside, inside⟩ := List.forall_mem_append.mp completes
  simp only [Microsoft.levelName, Encoder.symbol_eq_pure stored, pure_bind]
  cases sort with
  | specialization template args =>
      simp only [LinkName.Item.ofName, stored] at inside
      have level : Writes limit base (specializationName machine parts id
          ⟨ident, parent, access, .specialization template args⟩ args) := by
        refine (repeatedScope outside).join (fun later _ => ?_) fun _ _ _ written also => by
          simp [written, also]
        exact arguments formed held (formed.holds_args stored rfl) inside
      refine level.bind fun later tokens grown _ written => ?_
      split
      · exact .pure fun _ further _ => by simp [written.mono further]
      · exact Writes.orNameRef written
  | function info =>
      rcases info with ⟨type, role, needsThis, isVirtual, isConst⟩
      cases role with
      | destructor => exact .pure fun _ _ _ => by simp
      | _ => exact plain
  | _ => exact plain

theorem levelNames (formed : graph.WellFormed) (spelledOut : Bool)
    (held : graph.Holds (.symbol id))
    (completes : ∀ part ∈ Item.ofLevels graph id, Completes limit parts part) :
    Writes limit base (Microsoft.levelNames machine parts spelledOut id) := by
  obtain ⟨names, found, above⟩ := formed.levels_eq_ok held
  simp only [Item.ofLevels, found] at completes
  simp only [Microsoft.levelNames, found, Encoder.ofExcept, pure_bind]
  refine .concat fun name listed => ?_
  exact levelName formed spelledOut ((above name listed).holds formed held) fun part inside =>
    completes part (List.mem_flatMap.mpr ⟨name, listed, inside⟩)

theorem qualifiedName (formed : graph.WellFormed) (held : graph.Holds (.symbol id))
    (completes : ∀ part ∈ Item.ofLevels graph id, Completes limit parts part) :
    Writes limit base (Microsoft.qualifiedName machine parts id) :=
  (levelNames formed false held completes).wrap fun _ _ written => by simp [written]

/-! ## Types -/

theorem written_modifier (node : TypeNode) (place : Place) (last : Session graph Tables) :
    (discipline graph limit).Written last (modifier machine node place) := by
  unfold modifier
  split
  · exact .nil
  · split
    · simp
    · split <;> simp

theorem written_width (last : Session graph Tables) :
    (discipline graph limit).Written last (width machine) := by
  unfold width
  split <;> simp

/-- The shape of an array is found, and it is written in numbers that are not too wide. -/
theorem shape_bind (formed : graph.WellFormed) {id : TypeId}
    {tree : TypeTree} {next : List Nat × TypeId → Encoder graph (List Token)}
    (unfolds : base.overlay.Unfolds id tree)
    (rest : ∀ later dims element, (discipline graph limit).Later base later →
      later.overlay.Unfolds element tree.shape.2 →
      (∀ last : Session graph Tables, (discipline graph limit).Written last (dimensions dims)) →
        Writes limit later (next (dims, element))) :
    Writes limit base
      (get >>= fun session => Encoder.ofExcept (session.overlay.shape id) >>= next) := by
  intro session within valid
  obtain ⟨element, shaped, unfolded⟩ := valid.sound.shape formed (unfolds.mono within.overlay)
  have widths (representable : graph.Representable) :=
    Overlay.shape_dims valid.modest valid.sound representable shaped
  have written (last : Session graph Tables) :
      (discipline graph limit).Written last (dimensions tree.shape.1) := by
    refine Written.cons_iff.mpr ⟨trivial, Written.cons_iff.mpr ⟨?_, fun token listed => ?_⟩⟩
    · exact fun representable => (widths representable).1
    · obtain ⟨dim, known, rfl⟩ := List.mem_map.mp listed
      exact fun representable => (widths representable).2 dim known
  -- The shape is read in the session at hand, so the widths are known there and hold ever after.
  have run : (get >>= fun session => Encoder.ofExcept (session.overlay.shape id) >>= next).run
      session = (Encoder.ofExcept (session.overlay.shape id) >>= next).run session := rfl
  rw [run, shaped, Encoder.ofExcept, pure_bind]
  exact rest session _ element within unfolded written session (.refl session) valid

theorem array (formed : graph.WellFormed) {id : TypeId}
    {tree : TypeTree} {place : Place} (unfolds : base.overlay.Unfolds id tree)
    (completes : ∀ part ∈ Item.ofPointee tree place, Completes limit parts part) :
    Writes limit base (Microsoft.array machine parts id place) := by
  obtain ⟨node, part, found, -, -⟩ := unfolds.found
  refine .type_bind found (shape_bind formed unfolds
    fun later dims element _ unfolded sized => ?_)
  exact (completes _ List.mem_cons_self later element unfolded).wrap fun last _ written => by
    simp [written_modifier, sized last, written]

theorem pointee (formed : graph.WellFormed) {id : TypeId}
    {tree : TypeTree} {place : Place} (unfolds : base.overlay.Unfolds id tree)
    (completes : ∀ part ∈ Item.ofPointee tree place, Completes limit parts part) :
    Writes limit base (Microsoft.pointee machine parts id place) := by
  obtain ⟨node, part, found, -, -⟩ := unfolds.found
  refine .type_bind found ?_
  split
  · exact array formed unfolds completes
  · exact completes _ (List.mem_cons_of_mem _ List.mem_cons_self) base id unfolds

theorem parameters (formed : graph.WellFormed) {signature : Signature} {part : TypeId → TypeTree}
    (held : ∀ param ∈ signature.params, graph.Holds (.type param.type))
    (unfolds : ∀ param ∈ signature.params, base.overlay.Unfolds param.type (part param.type))
    (completes : ∀ param ∈ signature.params,
      Completes limit parts (.type (TypeTree.passed (param.passing, part param.type)) {})) :
    Writes limit base (Microsoft.parameters parts signature) := by
  have each : ∀ param ∈ signature.params, Writes limit base (Microsoft.parameter parts param) :=
    fun param listed => (Ends.passed formed (held param listed) (unfolds param listed)).bind
      fun later id _ _ passed => completes param listed later id passed
  exact (Ends.concat each).wrap fun _ _ written => by simp [written, parameterEnd]

theorem result (isStructor : Bool) {signature : Signature} {tree : TypeTree}
    (held : graph.Holds (.type signature.result))
    (unfolds : base.overlay.Unfolds signature.result tree)
    (completes : Completes limit parts
      (.type (TypeTree.returned signature.convention tree) { returned := true })) :
    Writes limit base (Microsoft.result parts isStructor signature) := by
  unfold Microsoft.result
  split
  · exact .pure fun _ _ _ => by simp
  · refine (Ends.returned held unfolds).bind fun later id _ _ returned => ?_
    obtain ⟨node, part, found, -, -⟩ := returned.found
    refine .type_bind found ((completes later id returned).wrap fun last tokens written => ?_)
    refine Written.append_iff.mpr ⟨?_, written⟩
    unfold resultMark
    split <;> simp

theorem functionType (formed : graph.WellFormed) {id : TypeId} {tree : TypeTree}
    (needsThis isStructor : Bool) (unfolds : base.overlay.Unfolds id tree)
    (completes : ∀ part ∈ Item.ofFunction tree, Completes limit parts part) :
    Writes limit base (Microsoft.functionType machine parts id needsThis isStructor) := by
  refine .of_valid fun base grown valid => ?_
  have unfolds := unfolds.mono grown.overlay
  refine .signature_bind formed unfolds fun signature quals found => ?_
  obtain ⟨heldResult, heldParams⟩ := List.forall_mem_cons.mp (valid.modest.holds_part formed found)
  obtain ⟨node, part, found', rfl, inside⟩ := unfolds.found
  obtain rfl := Except.ok.inj (found.symm.trans found')
  obtain ⟨unfoldsResult, unfoldsParams⟩ := List.forall_mem_cons.mp inside
  obtain ⟨returned, passed⟩ := List.forall_mem_cons.mp completes
  cases convention? machine signature.linkage (needsThis && !signature.variadic) with
  | none => exact .refuseType formed unfolds .noConvention
  | some convention =>
      refine (result isStructor heldResult unfoldsResult returned).join (fun later grown => ?_)
        fun _ _ _ written also => by simp [written, also]
      exact parameters formed (fun param listed => heldParams _ (List.mem_map_of_mem listed))
        (fun param listed => (unfoldsParams _ (List.mem_map_of_mem listed)).mono grown.overlay)
        fun param listed => passed _ (List.mem_map_of_mem (List.mem_map_of_mem listed))

theorem pointer (formed : graph.WellFormed)
    {id target : TypeId} {inner : TypeTree} {node : TypeNode} {place : Place}
    (unfolds : base.overlay.Unfolds target inner)
    (completes : ∀ part ∈ Item.ofPointee inner place.below ++ Item.ofFunction inner,
      Completes limit parts part) :
    Writes limit base (Microsoft.pointer machine parts id target node place) := by
  obtain ⟨below, function⟩ := List.forall_mem_append.mp completes
  obtain ⟨target', part, found, -, -⟩ := unfolds.found
  refine .type_bind found ?_
  split
  · refine (functionType formed false false unfolds function).bind fun _ _ _ _ written => ?_
    exact Writes.orTypeRef (.pure fun _ grown _ => by simp [pointerLetter, written.mono grown])
  · exact Writes.orTypeRef ((array formed unfolds below).wrap fun _ _ written => by
      simp [pointerLetter, written_modifier, written_width, written])
  · have direct : Writes limit base (parts.type target place.below) :=
      below _ (List.mem_cons_of_mem _ List.mem_cons_self) base target unfolds
    exact Writes.orTypeRef (direct.wrap fun _ _ written => by
      simp [pointerLetter, written_modifier, written_width, written])

theorem basicType (formed : graph.WellFormed) {id : TypeId} {tree : TypeTree} {node : TypeNode}
    {basic : BasicType} {place : Place} (unfolds : base.overlay.Unfolds id tree) :
    Writes limit base (Microsoft.basicType machine id node basic place) := by
  unfold Microsoft.basicType
  split
  · exact .refuseType formed unfolds .noBuiltin
  · next code _ =>
    have tokens : Writes limit base (pure (modifier machine node place ++ [.text code])) :=
      .pure fun _ _ _ => by simp [written_modifier]
    dsimp only
    split
    · exact Writes.orTypeRef tokens
    · exact tokens

/-- A name behind the letters that say what it names. -/
theorem leadName (formed : graph.WellFormed) (held : graph.Holds (.symbol id))
    (completes : ∀ part ∈ Item.ofLevels graph id, Completes limit parts part) (lead : List Token)
    (plain : ∀ last : Session graph Tables, (discipline graph limit).Written last lead) :
    Writes limit base (do return lead ++ (← Microsoft.qualifiedName machine parts id)) :=
  (qualifiedName formed held completes).wrap fun last _ written =>
    Written.append_iff.mpr ⟨plain last, written⟩

theorem writes_type (formed : graph.WellFormed) {id : TypeId}
    {tree : TypeTree} {place : Place} (unfolds : base.overlay.Unfolds id tree)
    (completes : ∀ part ∈ Item.ofType graph tree place, Completes limit parts part) :
    Writes limit base (Microsoft.type machine parts id place) := by
  refine .of_valid fun base grown valid => ?_
  have unfolds := unfolds.mono grown.overlay
  obtain ⟨⟨form, quals⟩, part, found, rfl, inside⟩ := unfolds.found
  have named : ∀ symbol ∈ form.symbol?, graph.Holds (.symbol symbol) :=
    fun symbol mentioned => valid.sound.symbol_held formed found mentioned
  refine .type_bind found (.demand_bind (.refuseType formed unfolds .foreignQualifiers) ?_)
  cases form with
  | basic basic => exact basicType formed unfolds
  | vector element => exact Writes.orTypeRef (.pure fun _ _ _ => by simp)
  | staticArray dim element =>
      have below := (List.forall_mem_append.mp completes).1
      exact Writes.orTypeRef ((pointee formed (inside element List.mem_cons_self) below).wrap
        fun _ _ written => by simp [pointerLetter, written])
  | pointer target =>
      exact pointer formed (inside target List.mem_cons_self) completes
  | reference target =>
      have below := (List.forall_mem_append.mp completes).1
      exact Writes.orTypeRef ((pointee formed (inside target List.mem_cons_self) below).wrap
        fun _ _ written => by simp [written_width, written])
  | record symbol =>
      obtain ⟨found, stored⟩ := Graph.holds_symbol_iff.mp (named symbol rfl)
      simp only [Encoder.symbol_eq_pure stored, pure_bind]
      exact Writes.orTypeRef (leadName formed (named symbol rfl) completes _
        fun _ => by simp [written_modifier])
  | enumeration symbol enumBase =>
      refine Writes.orTypeRef ?_
      unfold Microsoft.enumeration
      split
      · exact .refuseType formed unfolds .enumBase
      · exact leadName formed (named symbol rfl) completes _ fun _ => by simp [written_modifier]
  | classRef symbol =>
      have outer (last : Session graph Tables) (node : TypeNode) :
          (discipline graph limit).Written last
            (if place.indirect then modifier machine node place else []) := by
        split <;> simp [written_modifier]
      exact Writes.orTypeRef (leadName formed (named symbol rfl) completes _
        fun _ => by simp [outer, pointerLetter, written_modifier, written_width])
  | function signature => exact .refuseType formed unfolds .bareFunction
  | dynamicArray _ | assocArray _ _ | delegate _ | typedef _ =>
      exact .refuseType formed unfolds .noCounterpart

/-! ## Declarations -/

theorem functionName (formed : graph.WellFormed) {symbol : Symbol} {info : FunctionInfo}
    (stored : graph.symbol id = .ok symbol) (sort : symbol.sort = .function info)
    (completes : ∀ part ∈ Item.ofDeclaration graph id, Completes limit parts part) :
    Writes limit base (Microsoft.functionName machine parts id) := by
  have held : graph.Holds (.symbol id) := Graph.holds_symbol_iff.mpr ⟨symbol, stored⟩
  have heldType := formed.closed _ _ (Graph.mentions_function stored sort)
  obtain ⟨levels, signature⟩ := List.forall_mem_append.mp completes
  have function : ∀ part ∈ Item.ofFunction (graph.tree info.type), Completes limit parts part := by
    rcases symbol with ⟨ident, parent, access, kind⟩
    obtain rfl : kind = .function info := sort
    simpa only [Item.ofSignature, stored] using signature
  simp only [Microsoft.functionName, Encoder.symbol_eq_pure stored, pure_bind, sort,
    FollowsPlan.isMember_eq_pure formed stored]
  have placed (last : Session graph Tables) : (discipline graph limit).Written last
      (placement machine info symbol.access (Plan.isMember graph symbol)) := by
    unfold placement
    split <;> simp [written_width]
  refine (qualifiedName formed held levels).join (fun later _ => ?_)
    fun last _ _ written also => by simp [placed last, written, also]
  exact functionType formed _ _ (formed.unfolds_tree heldType later.overlay) function

theorem variableType (formed : graph.WellFormed) {info : VariableInfo} {node : TypeNode}
    (held : graph.Holds (.type info.type)) (found : base.overlay.type info.type = .ok node)
    (completes : ∀ part ∈ ([.type (graph.tree info.type) {},
      .type (graph.tree info.type).mutable {}] : List Item), Completes limit parts part) :
    Writes limit base (Microsoft.variableType parts info.type node) := by
  have unfolds := formed.unfolds_tree held base.overlay
  obtain ⟨direct, mutable⟩ := List.forall_mem_cons.mp completes
  obtain ⟨stored, known⟩ := Graph.holds_type_iff.mp held
  obtain rfl := Except.ok.inj ((Overlay.type_of_graph known).symm.trans found)
  have listed : stored ∈ graph.types := List.mem_of_getElem? (Graph.type_eq_ok_iff.mp known)
  unfold Microsoft.variableType
  split
  · exact direct base info.type unfolds
  · exact (Ends.mutableOf formed unfolds found listed).bind fun later other _ _ unfolded =>
      mutable _ List.mem_cons_self later other unfolded

theorem variableName (formed : graph.WellFormed) {symbol : Symbol} {info : VariableInfo}
    (stored : graph.symbol id = .ok symbol) (sort : symbol.sort = .var info)
    (completes : ∀ part ∈ Item.ofDeclaration graph id, Completes limit parts part) :
    Writes limit base (Microsoft.variableName machine parts id) := by
  have held : graph.Holds (.symbol id) := Graph.holds_symbol_iff.mpr ⟨symbol, stored⟩
  have heldType := formed.closed _ _ (Graph.mentions_variable stored sort)
  obtain ⟨scope, enclosing⟩ := formed.scopeParent_eq_ok held
  obtain ⟨levels, signature⟩ := List.forall_mem_append.mp completes
  have types : ∀ part ∈ ([.type (graph.tree info.type) {},
      .type (graph.tree info.type).mutable {}] : List Item), Completes limit parts part := by
    rcases symbol with ⟨ident, parent, access, kind⟩
    obtain rfl : kind = .var info := sort
    simpa only [Item.ofSignature, stored] using signature
  simp only [Microsoft.variableName, Encoder.symbol_eq_pure stored, pure_bind, sort,
    Encoder.scopeParent_eq_pure enclosing]
  refine .demand_bind (.refuseStorage formed held) ?_
  refine (qualifiedName formed held levels).bind fun later name _ _ written => ?_
  have unfolds := formed.unfolds_tree heldType later.overlay
  obtain ⟨node, part, found, -, -⟩ := unfolds.found
  refine .type_bind found (.demand_bind (.refuseType formed unfolds .foreignQualifiers) ?_)
  refine (variableType formed heldType found types).bind fun last tokens grown _ also => ?_
  refine .pure fun final further _ => ?_
  have ending : (discipline graph limit).Written final (variableEnd machine node) := by
    unfold variableEnd
    dsimp only
    split <;> simp [written_width]
  simp [ending, written.mono (grown.trans further), also.mono further]

/-! ## Arguments -/

theorem value {owner : SymbolId} {type : TypeId} {number : Int} {tree : TypeTree}
    (unfolds : base.overlay.Unfolds type tree)
    (refused : Writes limit base (Encoder.refuseArgument owner (.value type number) .notIntegral))
    (small : graph.Representable → (.argument owner (.value type number) : Item).Representable) :
    Writes limit base (Microsoft.argument machine parts owner (.value type number)) := by
  obtain ⟨node, part, found, -, -⟩ := unfolds.found
  refine .type_bind found ?_
  cases node.form.integral? with
  | none => exact refused
  | some basic =>
      have magnitude (representable : graph.Representable) :
          (basic.signMagnitude number).2 < 2 ^ 128 := by
        obtain ⟨low, high⟩ := small representable number rfl
        exact basic.magnitude_lt low high
      refine .pure fun last _ _ => ?_
      unfold literal
      dsimp only
      split <;> simpa using magnitude

theorem symbolAlias (formed : graph.WellFormed) {owner target : SymbolId}
    (held : graph.Holds (.symbol target))
    (refused : ∀ reason,
      Writes limit base (Encoder.refuseArgument owner (.symbolAlias target) reason))
    (completes : ∀ part ∈ Item.ofDeclaration graph target, Completes limit parts part) :
    Writes limit base (Microsoft.argument machine parts owner (.symbolAlias target)) := by
  obtain ⟨symbol, stored⟩ := Graph.holds_symbol_iff.mp held
  simp only [Microsoft.argument, Encoder.symbol_eq_pure stored, pure_bind]
  cases sort : symbol.sort with
  | function info =>
      exact (functionName formed stored sort completes).wrap fun _ _ written => by simp [written]
  | var info =>
      exact (variableName formed stored sort completes).wrap fun _ _ written => by simp [written]
  | template member =>
      cases member with
      | none => exact refused .aliasTarget
      | some member =>
          simp only [FollowsPlan.aliasLetter?_eq_pure formed stored sort, pure_bind]
          cases Plan.aliasLetter? graph machine member with
          | none => exact refused .aliasTemplate
          | some letter =>
              obtain ⟨levels, -⟩ := List.forall_mem_append.mp completes
              exact leadName formed held levels _ fun _ => by simp
  | _ => exact refused .aliasTarget

theorem writes_argument (formed : graph.WellFormed) {owner : SymbolId} {arg : TemplateArg}
    (heldOwner : graph.Holds (.symbol owner)) (held : graph.HoldsArg arg)
    (small : graph.Representable → (.argument owner arg : Item).Representable)
    (completes : ∀ part ∈ Item.parts graph (.argument owner arg), Completes limit parts part) :
    Writes limit base (Microsoft.argument machine parts owner arg) := by
  have refused (reason : ArgumentReason) :
      Writes limit base (Encoder.refuseArgument owner arg reason) :=
    .refuseArgument formed heldOwner held reason
  cases arg with
  | type id => exact completes _ List.mem_cons_self base id (formed.unfolds_tree (held _ rfl) _)
  | typeAlias id => exact refused .aliasTarget
  | pack args => exact refused .nestedPack
  | value id number =>
      exact value (formed.unfolds_tree (held _ rfl) _) (refused .notIntegral) small
  | symbolAlias target => exact symbolAlias formed (held _ rfl) refused completes

end Completes

/-! ## Whole names -/

namespace Item

theorem representable_ofLevels (representable : graph.Representable) {id : SymbolId} :
    ∀ part ∈ Item.ofLevels graph id, part.Representable := by
  intro part listed
  unfold Item.ofLevels at listed
  split at listed
  · obtain ⟨name, -, inside⟩ := List.mem_flatMap.mp listed
    unfold Item.ofLevel at inside
    split at inside
    · rcases List.mem_append.mp inside with outer | inside
      · obtain ⟨parent, -, rfl⟩ := List.mem_map.mp outer
        trivial
      · exact LinkName.Item.representable_ofName representable part inside
    · cases inside
  · cases listed

theorem representable_ofFunction {tree : TypeTree} :
    ∀ part ∈ Item.ofFunction tree, part.Representable := by
  intro part listed
  cases tree with
  | function result params convention quals =>
      rcases List.mem_cons.mp listed with rfl | listed
      · trivial
      · obtain ⟨param, -, rfl⟩ := List.mem_map.mp listed
        trivial
  | _ => cases listed

theorem representable_ofDeclaration (representable : graph.Representable) {id : SymbolId} :
    ∀ part ∈ Item.ofDeclaration graph id, part.Representable := by
  refine List.forall_mem_append.mpr ⟨representable_ofLevels representable, fun part listed => ?_⟩
  unfold Item.ofSignature at listed
  split at listed
  · exact representable_ofFunction part listed
  · rcases List.mem_cons.mp listed with rfl | listed
    · trivial
    · obtain rfl := List.mem_singleton.mp listed
      trivial
  · cases listed

theorem representable_parts (representable : graph.Representable) (item : Item) :
    ∀ part ∈ Item.parts graph item, part.Representable := by
  cases item with
  | scope id => exact representable_ofLevels representable
  | argument owner arg =>
      cases arg with
      | type id => exact List.forall_mem_singleton.mpr trivial
      | symbolAlias target => exact representable_ofDeclaration representable
      | value | typeAlias | pack => exact List.forall_mem_nil _
  | type tree place =>
      cases tree with
      | layer around inner quals =>
          refine List.forall_mem_append.mpr ⟨?_, representable_ofFunction⟩
          exact List.forall_mem_cons.mpr ⟨trivial, List.forall_mem_singleton.mpr trivial⟩
      | named naming symbol quals => exact representable_ofLevels representable
      | basic | assocArray | function => exact List.forall_mem_nil _

end Item

/-- Where an item needs less than the depth, it is written to an end. -/
theorem completes_encoding (formed : graph.WellFormed) (order : graph.Order) (machine : Target)
    (depth : Nat) {item : Item} (held : item.Held graph)
    (small : graph.Representable → item.Representable) (deep : item.need order < depth) :
    Completes limit (encoding machine depth : Encoding graph) item := by
  induction depth generalizing item with
  | zero => exact absurd deep (Nat.not_lt_zero _)
  | succ depth ih =>
      have parts : ∀ part ∈ Item.parts graph item,
          Completes limit (encoding machine depth : Encoding graph) part := by
        intro part listed
        obtain ⟨heldPart, less⟩ := Item.below_parts formed order held part listed
        exact ih heldPart
          (fun representable => Item.representable_parts representable item part listed) (by omega)
      cases item with
      | scope id => exact fun base => Completes.levelNames formed true held parts
      | argument owner arg =>
          exact fun base => Completes.writes_argument formed held.1 held.2 small parts
      | type tree place =>
          exact fun base id unfolds => Completes.writes_type formed unfolds parts

theorem writes_encode (formed : graph.WellFormed) (machine : Target) {id : SymbolId}
    (held : graph.Holds (.symbol id)) (base : Session graph Tables) :
    Writes limit base (encode machine id) := by
  obtain ⟨symbol, stored⟩ := Graph.holds_symbol_iff.mp held
  have order := formed.order
  have parts : ∀ part ∈ Item.ofDeclaration graph id,
      Completes limit (encoding machine (Encoder.depthBound graph) : Encoding graph) part := by
    intro part listed
    obtain ⟨heldPart, less⟩ := Item.below_ofDeclaration formed order held part listed
    exact completes_encoding formed order machine _ heldPart
      (fun representable => Item.representable_ofDeclaration representable part listed)
      (less.trans_le (Encoder.rank_le_depthBound order held))
  simp only [encode, Encoder.symbol_eq_pure stored, pure_bind]
  cases sort : symbol.sort with
  | function info => exact Completes.functionName formed stored sort parts
  | var info => exact Completes.variableName formed stored sort parts
  | _ => exact .refuseSymbol formed stored

end Microsoft

end LinkName
