import LinkName.Itanium.Name
import LinkName.Proofs.Limits
import LinkName.Proofs.Table

/-!
Itanium names with limited handles and sequence numbers. A sequence number is wanted when a slot is
referred back to, and not when it is taken.
-/
namespace LinkName.Itanium

variable {handles : Option Nat} {graph : Graph}

/-- Slots are what Itanium names number. -/
abbrev Tracks {α : Type} (limited : LimitedEncoder handles graph α) (free : Encoder graph α) :
    Prop :=
  LinkName.Tracks Table.size limited free

/-- The parts of a name are written with a limit as they are without. -/
structure TracksParts (parts : Encoding graph handles) (parts' : Encoding graph) : Prop where
  scope : ∀ id, Tracks (parts.scope id) (parts'.scope id)
  argument : ∀ owner arg, Tracks (parts.argument owner arg) (parts'.argument owner arg)
  type : ∀ id place, Tracks (parts.type id place) (parts'.type id place)

namespace Tracks

variable {write : LimitedEncoder handles graph (List Token)} {write' : Encoder graph (List Token)}

/-! ## Slots -/

theorem isKnown (component : Component) :
    Tracks (isKnown component : LimitedEncoder handles graph Bool) (isKnown component) :=
  LinkName.Tracks.read_bind fun _ => .pure _

theorem store (component : Component) :
    Tracks (store component : LimitedEncoder handles graph Unit) (store component) :=
  .change (fun _ => ()) (fun table => (table.push component).2) (fun _ => rfl) (fun _ => rfl)
    fun table => (table.entries_prefix_push component).length_le

theorem storeIf (condition : Bool) (component : Component) :
    Tracks (storeIf condition component : LimitedEncoder handles graph Unit)
      (storeIf condition component) :=
  LinkName.Tracks.ite (store component) (.pure ())

/-- The one step that takes a sequence number. -/
theorem orBackRef (component : Component) (tracks : Tracks write write') :
    Tracks (orBackRef component write) (orBackRef component write') where
  ends session := by
    have same : session.free.tables = session.tables := rfl
    rw [run_orBackRef_elim, run_orBackRef_elim, same]
    cases found : session.tables.find? component with
    | none => exact tracks.ends session
    | some slot =>
        have inside : slot < session.tables.size :=
          (List.getElem?_eq_some_iff.mp (Table.getElem?_of_find? found)).1
        obtain _ | limit := handles
        · exact .ok _ session
        · simp only [Option.elim_some, backRef]
          cases named : slotName? slot (some limit) with
          | some name => exact .ok _ session
          | none =>
              refine .want trivial rfl (.inr ?_)
              have beyond : ¬ slot ≤ limit := fun within => by
                simp [slotName?, within] at named
              exact (Nat.not_le.mp beyond).trans inside
  leads session := by
    rw [run_orBackRef_elim]
    cases session.tables.find? component with
    | none => exact tracks.leads session
    | some slot => exact .refl session

theorem thenStore (component : Component) (tracks : Tracks write write') :
    Tracks (thenStore component write) (thenStore component write') :=
  tracks.bind fun _ => (store component).bind fun _ => .pure _

theorem storeThen (component : Component) (tracks : Tracks write write') :
    Tracks (storeThen component write) (storeThen component write') :=
  (store component).bind fun _ => tracks

theorem compound (id : TypeId) (tracks : Tracks write write') :
    Tracks (compound id write) (compound id write') :=
  .orBackRef _ (.thenStore _ tracks)

theorem basicType (machine : Target) (id : TypeId) (node : TypeNode) (basic : BasicType) :
    Tracks (basicType machine id node basic : LimitedEncoder handles graph (List Token))
      (basicType machine id node basic) :=
  LinkName.Tracks.ite (orBackRef _ (.storeThen _ (.pure _))) (.pure _)

end Tracks

/-! ## Parts -/

namespace TracksParts

variable {parts : Encoding graph handles} {parts' : Encoding graph}
variable (tracks : TracksParts parts parts')
include tracks

theorem arguments (owner : SymbolId) (args : List TemplateArg) :
    Tracks (arguments parts owner args) (arguments parts' owner args) := by
  fun_induction Itanium.arguments parts owner args with
  | case1 => exact .pure []
  | case2 args => exact (LinkName.Tracks.concat args (tracks.argument owner)).map _
  | case3 args => exact .refuseArgument owner _ _
  | case4 first rest last early ih =>
      rw [Itanium.arguments.eq_4 parts' owner first rest last early]
      exact (tracks.argument owner first).bind fun _ => ih.map _

theorem sourceName (id : SymbolId) : Tracks (sourceName parts id) (sourceName parts' id) := by
  refine (LinkName.Tracks.symbol id).bind fun symbol => ?_
  cases symbol.sort with
  | specialization template args =>
      exact (Tracks.orBackRef _ (.storeThen _ (.pure _))).bind fun _ =>
        (tracks.arguments id args).map _
  | _ => exact .pure _

theorem enclosing (level : Level) (scope : SymbolId) :
    Tracks (enclosing parts level scope) (enclosing parts' level scope) := by
  refine LinkName.Tracks.bind ?_ fun known => .ite (.pure []) (tracks.scope scope)
  unfold impliesScope
  cases level.template with
  | some template => exact Tracks.isKnown _
  | none => exact .pure false

theorem scopeName (id : SymbolId) : Tracks (scopeName parts id) (scopeName parts' id) := by
  refine .orBackRef _ (.storeThen _ ((LinkName.Tracks.ofExcept _).bind fun level => ?_))
  cases level.scope with
  | some scope => exact (tracks.enclosing level scope).bind fun _ => (tracks.sourceName _).map _
  | none => exact tracks.sourceName level.name

theorem qualifiedName (id : SymbolId) :
    Tracks (qualifiedName parts id) (qualifiedName parts' id) := by
  refine (LinkName.Tracks.ofExcept _).bind fun level => ?_
  cases level.scope with
  | some scope => exact (tracks.enclosing level scope).bind fun _ => (tracks.sourceName _).map _
  | none => exact tracks.sourceName level.name

theorem mention (id : SymbolId) : Tracks (mention parts id) (mention parts' id) :=
  .orBackRef _ (.thenStore _ (tracks.qualifiedName id))

/-! ## Declarations -/

theorem parameter (param : Param) : Tracks (parameter parts param) (parameter parts' param) := by
  refine (LinkName.Tracks.passed param).bind fun id => LinkName.Tracks.bind ?_ fun other =>
    tracks.type other .outermost
  exact (LinkName.Tracks.type id).bind fun _ => .ite (.mutableOf id) (.pure id)

theorem parameters (signature : Signature) :
    Tracks (parameters parts signature) (parameters parts' signature) :=
  (LinkName.Tracks.concat _ tracks.parameter).map _

variable (machine : Target)

theorem variableName (asArgument : Bool) (id : SymbolId) :
    Tracks (variableName machine parts asArgument id)
      (variableName machine parts' asArgument id) := by
  refine (LinkName.Tracks.symbol id).bind fun symbol => ?_
  cases symbol.sort with
  | var info =>
      refine (LinkName.Tracks.demand _ (.refuseStorage id)).bind fun _ =>
        (LinkName.Tracks.scopeParent id).bind fun scope => ?_
      cases scope with
      | some scope => exact (tracks.scope scope).bind fun _ => (tracks.sourceName id).map _
      | none => exact .ite ((tracks.sourceName id).map _) (.pure _)
  | _ => exact .refuseSymbol id

theorem functionPath (info : FunctionInfo) (id : SymbolId) :
    Tracks (functionPath parts info id) (functionPath parts' info id) := by
  refine (LinkName.Tracks.scopeParent id).bind fun scope => ?_
  cases scope with
  | some scope =>
      exact (tracks.scope scope).bind fun _ =>
        (LinkName.Tracks.ite (.pure _) (tracks.sourceName id)).map _
  | none => exact tracks.sourceName id

theorem functionName (id : SymbolId) :
    Tracks (functionName machine parts id) (functionName machine parts' id) := by
  refine (LinkName.Tracks.symbol id).bind fun symbol => ?_
  cases symbol.sort with
  | function info =>
      refine (LinkName.Tracks.signature info.type).bind fun signature => .ite ?_ ?_
      · exact (tracks.functionPath info id).bind fun _ => (tracks.parameters signature).map _
      · exact (tracks.sourceName id).map _
  | _ => exact .refuseSymbol id

theorem argument_step (owner : SymbolId) (arg : TemplateArg) :
    Tracks (Itanium.argument machine parts owner arg)
      (Itanium.argument machine parts' owner arg) := by
  cases arg with
  | type type => exact tracks.type type .nested
  | value type number =>
      refine (LinkName.Tracks.type type).bind fun node => ?_
      cases node.form.integral? with
      | some basic => exact (tracks.type type .nested).map _
      | none => exact .refuseArgument owner _ _
  | symbolAlias named =>
      refine (LinkName.Tracks.symbol named).bind fun symbol => ?_
      cases symbol.sort with
      | function info =>
          exact (LinkName.Tracks.signature info.type).bind fun _ =>
            (LinkName.Tracks.scopeParent named).bind fun _ => (tracks.functionName machine named).map _
      | var info => exact (tracks.variableName machine true named).map _
      | template member =>
          cases member with
          | some member => exact tracks.mention named
          | none => exact .refuseArgument owner _ _
      | _ => exact .refuseArgument owner _ _
  | typeAlias type => exact .refuseArgument owner _ _
  | pack args => exact .refuseArgument owner _ _

/-! ## Types -/

theorem functionType (id : TypeId) (signature : Signature) :
    Tracks (functionType parts id signature) (functionType parts' id signature) :=
  .compound id ((LinkName.Tracks.returned signature).bind fun result =>
    (tracks.type result .nested).bind fun _ => (tracks.parameters signature).map _)

theorem namedType (id : TypeId) (node : TypeNode) (symbol : SymbolId) :
    Tracks (namedType parts id node symbol) (namedType parts' id node symbol) :=
  .orBackRef _ ((tracks.mention symbol).bind fun _ => (Tracks.storeIf _ _).bind fun _ => .pure _)

theorem classType (id : TypeId) (node : TypeNode) (symbol : SymbolId) (place : Place) :
    Tracks (classType parts id node symbol place) (classType parts' id node symbol place) :=
  .compound id ((tracks.mention symbol).bind fun _ => (Tracks.storeIf _ _).bind fun _ => .pure _)

theorem type_step (id : TypeId) (place : Place) :
    Tracks (Itanium.type machine parts id place) (Itanium.type machine parts' id place) := by
  refine (LinkName.Tracks.type id).bind fun node =>
    (LinkName.Tracks.demand _ (.refuseType id .foreignQualifiers)).bind fun _ => ?_
  cases node.form with
  | basic basic => exact Tracks.basicType machine id node basic
  | vector inner | staticArray dim inner | pointer inner | reference inner =>
      exact Tracks.compound id ((tracks.type inner .nested).map _)
  | function signature => exact tracks.functionType id signature
  | record symbol | enumeration symbol => exact tracks.namedType id node symbol
  | classRef symbol => exact tracks.classType id node symbol place
  | dynamicArray | assocArray | delegate | typedef => exact .refuseType id .noCounterpart

end TracksParts

/-! ## Runs -/

theorem tracksParts_encoding (machine : Target) (depth : Nat) :
    TracksParts (encoding machine depth : Encoding graph handles) (encoding machine depth) := by
  induction depth with
  | zero => exact ⟨fun _ => .throw _, fun _ _ => .throw _, fun _ _ => .throw _⟩
  | succ depth ih => exact ⟨ih.scopeName, ih.argument_step machine, ih.type_step machine⟩

theorem tracks_encode (machine : Target) (id : SymbolId) :
    Tracks (encode machine id : LimitedEncoder handles graph (List Token)) (encode machine id) := by
  have tracks : TracksParts (encoding machine (Encoder.depthBound graph) : Encoding graph handles) _ :=
    tracksParts_encoding machine _
  refine (LinkName.Tracks.symbol id).bind fun symbol => ?_
  cases symbol.sort with
  | var info => exact tracks.variableName machine false id
  | function info => exact tracks.functionName machine id
  | _ => exact .refuseSymbol id

end LinkName.Itanium
