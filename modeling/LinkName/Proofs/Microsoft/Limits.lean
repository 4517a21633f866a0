import LinkName.Microsoft.Name
import LinkName.Proofs.Limits

/-!
Microsoft names with limited handles. Nothing in them is numbered beyond ten, so what they may run
out of is handles of derived types.
-/
namespace LinkName.Microsoft

variable {handles : Option Nat} {graph : Graph}

/-- The tables have a limit of their own. -/
abbrev Tracks {α : Type} (limited : LimitedEncoder handles graph α) (free : Encoder graph α) :
    Prop :=
  LinkName.Tracks (fun _ : Tables => 0) limited free

/-- The parts of a name are written with a limit as they are without. -/
structure TracksParts (parts : Encoding graph handles) (parts' : Encoding graph) : Prop where
  scope : ∀ id, Tracks (parts.scope id) (parts'.scope id)
  argument : ∀ owner arg, Tracks (parts.argument owner arg) (parts'.argument owner arg)
  type : ∀ id place, Tracks (parts.type id place) (parts'.type id place)

namespace Tracks

/-! ## Tables -/

theorem findOrInsertName (key : List Char) :
    Tracks (findOrInsertName key : LimitedEncoder handles graph (Option Nat))
      (findOrInsertName key) :=
  .change (fun tables => (tables.names.findOrInsert key).1)
    (fun tables => { tables with names := (tables.names.findOrInsert key).2 })
    (fun _ => rfl) (fun _ => rfl) fun _ => le_rfl

theorem recordName (key : List Char) :
    Tracks (recordName key : LimitedEncoder handles graph Unit) (recordName key) :=
  .change (fun _ => ())
    (fun tables => { tables with names := tables.names.insertUnique key })
    (fun _ => rfl) (fun _ => rfl) fun _ => le_rfl

theorem findOrInsertType (id : TypeId) :
    Tracks (findOrInsertType id : LimitedEncoder handles graph (Option Nat))
      (findOrInsertType id) :=
  .change (fun tables => (tables.types.findOrInsert id).1)
    (fun tables => { tables with types := (tables.types.findOrInsert id).2 })
    (fun _ => rfl) (fun _ => rfl) fun _ => le_rfl

theorem orTypeRef (id : TypeId) (place : Place)
    {write : LimitedEncoder handles graph (List Token)} {write' : Encoder graph (List Token)}
    (tracks : Tracks write write') : Tracks (orTypeRef id place write) (orTypeRef id place write') :=
  .ite tracks <| (findOrInsertType id).bind fun found => by
    cases found with
    | some index => exact .pure _
    | none => exact tracks

theorem orNameRef (spelledOut : Bool) (level : List Token) :
    Tracks (orNameRef spelledOut level : LimitedEncoder handles graph (List Token))
      (orNameRef spelledOut level) :=
  .ite ((recordName _).bind fun _ => .pure _) <| (findOrInsertName _).bind fun found => by
    cases found <;> exact .pure _

/-! ## Steps without parts -/

theorem isMember (symbol : Symbol) :
    Tracks (isMember symbol : LimitedEncoder handles graph Bool) (isMember symbol) := by
  unfold Microsoft.isMember
  cases symbol.parent with
  | none => exact .pure false
  | some parent =>
      refine (LinkName.Tracks.symbol parent).bind fun scope => ?_
      cases scope.sort <;> exact .pure _

variable (machine : Target)

theorem aliasLetter? (member : SymbolId) :
    Tracks (aliasLetter? machine member : LimitedEncoder handles graph (Option String))
      (aliasLetter? machine member) :=
  .ite (.pure _) <| (LinkName.Tracks.symbol member).bind fun symbol => by
    cases symbol.sort <;> exact .pure _

theorem basicType (id : TypeId) (node : TypeNode) (basic : BasicType) (place : Place) :
    Tracks (basicType machine id node basic place : LimitedEncoder handles graph (List Token))
      (basicType machine id node basic place) := by
  unfold Microsoft.basicType
  cases builtin? machine basic with
  | none => exact .refuseType id .noBuiltin
  | some code => exact .ite (orTypeRef id place (.pure _)) (.pure _)

end Tracks

/-! ## Parts -/

namespace TracksParts

variable {parts : Encoding graph handles} {parts' : Encoding graph}
variable (tracks : TracksParts parts parts')
include tracks

theorem arguments (owner : SymbolId) (args : List TemplateArg) :
    Tracks (arguments parts owner args) (arguments parts' owner args) := by
  fun_induction Microsoft.arguments parts owner args with
  | case1 => exact .pure []
  | case2 args => exact LinkName.Tracks.concat args (tracks.argument owner)
  | case3 args => exact .refuseArgument owner _ _
  | case4 first rest last early ih =>
      rw [Microsoft.arguments.eq_4 parts' owner first rest last early]
      exact (tracks.argument owner first).bind fun _ => ih.map _

variable (machine : Target)

theorem levelName (spelledOut : Bool) (id : SymbolId) :
    Tracks (levelName machine parts spelledOut id) (levelName machine parts' spelledOut id) := by
  refine (LinkName.Tracks.symbol id).bind fun symbol => ?_
  cases symbol.sort with
  | specialization template args =>
      have repeated : Tracks (repeatedScope machine parts symbol)
          (repeatedScope machine parts' symbol) := by
        unfold repeatedScope
        cases symbol.parent with
        | some parent => exact .ite (tracks.scope parent) (.pure [])
        | none => exact .pure []
      exact (repeated.bind fun _ => (tracks.arguments id args).map _).bind fun _ =>
        .ite (.pure _) (Tracks.orNameRef spelledOut _)
  | function info =>
      obtain ⟨type, role, needsThis, isVirtual, isConst⟩ := info
      cases role with
      | destructor => exact .pure _
      | plain | constructor => exact Tracks.orNameRef spelledOut _
  | _ => exact Tracks.orNameRef spelledOut _

theorem levelNames (spelledOut : Bool) (id : SymbolId) :
    Tracks (levelNames machine parts spelledOut id) (levelNames machine parts' spelledOut id) :=
  (LinkName.Tracks.ofExcept _).bind fun levels =>
    .concat levels (tracks.levelName machine spelledOut)

theorem qualifiedName (id : SymbolId) :
    Tracks (qualifiedName machine parts id) (qualifiedName machine parts' id) :=
  (tracks.levelNames machine false id).map _

/-! ## Types -/

theorem array (id : TypeId) (place : Place) :
    Tracks (array machine parts id place) (array machine parts' id place) :=
  (LinkName.Tracks.type id).bind fun _ => LinkName.Tracks.read_bind fun _ =>
    (LinkName.Tracks.ofExcept _).bind fun shape => (tracks.type shape.2 _).map _

theorem pointee (id : TypeId) (place : Place) :
    Tracks (pointee machine parts id place) (pointee machine parts' id place) :=
  (LinkName.Tracks.type id).bind fun _ => .ite (tracks.array machine id place) (tracks.type id place)

theorem parameters (signature : Signature) :
    Tracks (parameters parts signature) (parameters parts' signature) :=
  (LinkName.Tracks.concat _ fun param =>
    (LinkName.Tracks.passed param).bind fun id => tracks.type id {}).map _

theorem result (isStructor : Bool) (signature : Signature) :
    Tracks (result parts isStructor signature) (result parts' isStructor signature) :=
  .ite (.pure _) <| (LinkName.Tracks.returned signature).bind fun id =>
    (LinkName.Tracks.type id).bind fun _ => (tracks.type id _).map _

theorem functionType (id : TypeId) (needsThis isStructor : Bool) :
    Tracks (functionType machine parts id needsThis isStructor)
      (functionType machine parts' id needsThis isStructor) := by
  refine (LinkName.Tracks.signature id).bind fun signature => ?_
  cases convention? machine signature.linkage (needsThis && !signature.variadic) with
  | none => exact .refuseType id .noConvention
  | some convention =>
      exact (tracks.result isStructor signature).bind fun _ => (tracks.parameters signature).map _

theorem pointer (id target : TypeId) (node : TypeNode) (place : Place) :
    Tracks (pointer machine parts id target node place)
      (pointer machine parts' id target node place) := by
  refine (LinkName.Tracks.type target).bind fun pointed => ?_
  cases pointed.form with
  | function signature =>
      exact (tracks.functionType machine target false false).bind fun _ =>
        Tracks.orTypeRef id place (.pure _)
  | staticArray dim element =>
      exact Tracks.orTypeRef id place ((tracks.array machine target place.below).map _)
  | _ => exact Tracks.orTypeRef id place ((tracks.type target place.below).map _)

theorem enumeration (id : TypeId) (node : TypeNode) (symbol : SymbolId) (base : BasicType)
    (place : Place) :
    Tracks (enumeration machine parts id node symbol base place)
      (enumeration machine parts' id node symbol base place) := by
  unfold Microsoft.enumeration
  cases enumBase? base with
  | none => exact .refuseType id .enumBase
  | some code => exact (tracks.qualifiedName machine symbol).map _

theorem type_step (id : TypeId) (place : Place) :
    Tracks (Microsoft.type machine parts id place) (Microsoft.type machine parts' id place) := by
  refine (LinkName.Tracks.type id).bind fun node =>
    (LinkName.Tracks.demand _ (.refuseType id .foreignQualifiers)).bind fun _ => ?_
  cases node.form with
  | basic basic => exact Tracks.basicType machine id node basic place
  | vector inner => exact Tracks.orTypeRef id place (.pure _)
  | staticArray dim element =>
      exact Tracks.orTypeRef id place ((tracks.pointee machine element place.below).map _)
  | pointer target => exact tracks.pointer machine id target node place
  | reference target =>
      exact Tracks.orTypeRef id place ((tracks.pointee machine target place.below).map _)
  | record symbol =>
      exact Tracks.orTypeRef id place <| (LinkName.Tracks.symbol symbol).bind fun _ =>
        (tracks.qualifiedName machine symbol).map _
  | enumeration symbol base =>
      exact Tracks.orTypeRef id place (tracks.enumeration machine id node symbol base place)
  | classRef symbol => exact Tracks.orTypeRef id place ((tracks.qualifiedName machine symbol).map _)
  | function signature => exact .refuseType id .bareFunction
  | dynamicArray | assocArray | delegate | typedef => exact .refuseType id .noCounterpart

/-! ## Declarations -/

theorem functionName (id : SymbolId) :
    Tracks (functionName machine parts id) (functionName machine parts' id) := by
  refine (LinkName.Tracks.symbol id).bind fun symbol => ?_
  cases symbol.sort with
  | function info =>
      exact (tracks.qualifiedName machine id).bind fun _ => (Tracks.isMember symbol).bind fun _ =>
        (tracks.functionType machine info.type _ _).map _
  | _ => exact .refuseSymbol id

theorem variableType (id : TypeId) (node : TypeNode) :
    Tracks (variableType parts id node) (variableType parts' id node) :=
  .ite (tracks.type id {}) ((LinkName.Tracks.mutableOf id).bind fun mutable => tracks.type mutable {})

theorem variableName (id : SymbolId) :
    Tracks (variableName machine parts id) (variableName machine parts' id) := by
  refine (LinkName.Tracks.symbol id).bind fun symbol => ?_
  cases symbol.sort with
  | var info =>
      exact (LinkName.Tracks.demand _ (.refuseStorage id)).bind fun _ =>
        (tracks.qualifiedName machine id).bind fun _ =>
        (LinkName.Tracks.scopeParent id).bind fun _ =>
        (LinkName.Tracks.type info.type).bind fun node =>
        (LinkName.Tracks.demand _ (.refuseType info.type .foreignQualifiers)).bind fun _ =>
        (tracks.variableType info.type node).map _
  | _ => exact .refuseSymbol id

theorem argument_step (owner : SymbolId) (arg : TemplateArg) :
    Tracks (Microsoft.argument machine parts owner arg)
      (Microsoft.argument machine parts' owner arg) := by
  cases arg with
  | type type => exact tracks.type type {}
  | value type number =>
      refine (LinkName.Tracks.type type).bind fun node => ?_
      cases node.form.integral? with
      | some basic => exact .pure _
      | none => exact .refuseArgument owner _ _
  | symbolAlias named =>
      refine (LinkName.Tracks.symbol named).bind fun symbol => ?_
      cases symbol.sort with
      | function info => exact (tracks.functionName machine named).map _
      | var info => exact (tracks.variableName machine named).map _
      | template member =>
          cases member with
          | some member =>
              refine (Tracks.aliasLetter? machine member).bind fun letter => ?_
              cases letter with
              | some letter => exact (tracks.qualifiedName machine named).map _
              | none => exact .refuseArgument owner _ _
          | none => exact .refuseArgument owner _ _
      | _ => exact .refuseArgument owner _ _
  | typeAlias type => exact .refuseArgument owner _ _
  | pack args => exact .refuseArgument owner _ _

end TracksParts

/-! ## Runs -/

theorem tracksParts_encoding (machine : Target) (depth : Nat) :
    TracksParts (encoding machine depth : Encoding graph handles) (encoding machine depth) := by
  induction depth with
  | zero => exact ⟨fun _ => .throw _, fun _ _ => .throw _, fun _ _ => .throw _⟩
  | succ depth ih =>
      exact ⟨ih.levelNames machine true, ih.argument_step machine, ih.type_step machine⟩

theorem tracks_encode (machine : Target) (id : SymbolId) :
    Tracks (encode machine id : LimitedEncoder handles graph (List Token)) (encode machine id) := by
  have tracks : TracksParts (encoding machine (Encoder.depthBound graph) : Encoding graph handles) _ :=
    tracksParts_encoding machine _
  refine (LinkName.Tracks.symbol id).bind fun symbol => ?_
  cases symbol.sort with
  | var info => exact tracks.variableName machine id
  | function info => exact tracks.functionName machine id
  | _ => exact .refuseSymbol id

end LinkName.Microsoft
