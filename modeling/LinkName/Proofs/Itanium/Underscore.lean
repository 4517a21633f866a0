import LinkName.Naming
import LinkName.Proofs.Graph.Construction
import Mathlib.Data.List.Basic
import Mathlib.Tactic.Set

/-!
Object formats that put an underscore before every symbol. In such a format the encoder starts the
name of a function or of a scoped variable with a longer lead. A template argument that names a
function or a variable embeds a whole name, lead included, so the longer lead is written in the
middle of a name as well, where no symbol starts. Nothing else depends on the format.
-/
namespace LinkName

/-- The same target with an underscore before every symbol. -/
def Target.withUnderscore (target : Target) : Target := { target with machO := true }

namespace Encoder

variable {graph : Graph} {τ α β : Type} (change : α → β)

theorem map_throw (refusal : Refusal) :
    change <$> (throw refusal : Encoder graph τ α) = throw refusal := rfl

theorem map_refuseSymbol (id : SymbolId) :
    change <$> (refuseSymbol id : Encoder graph τ α) = refuseSymbol id := by
  simp only [refuseSymbol, map_bind, map_throw]

theorem map_refuseType (id : TypeId) (reason : TypeReason) :
    change <$> (refuseType id reason : Encoder graph τ α) = refuseType id reason := by
  simp only [refuseType, map_bind, map_throw]

theorem map_refuseArgument (owner : SymbolId) (arg : TemplateArg) (reason : ArgumentReason) :
    change <$> (refuseArgument owner arg reason : Encoder graph τ α) =
      refuseArgument owner arg reason := by
  simp only [refuseArgument, map_bind, map_throw]

theorem outcome_map (computation : Encoder graph τ α) (tables : τ) :
    outcome (change <$> computation) tables = change <$> outcome computation tables := by
  simp only [outcome, EStateM.run, Functor.map, EStateM.map]
  cases computation { tables } <;> rfl

end Encoder

namespace Itanium

namespace Token

/-- Whether the token starts the name of a function or of a scoped variable. -/
def isLead (token : Token) : Bool := token == .text "_Z"

/-- The token where symbols carry an extra underscore. -/
def underscored (token : Token) : Token := if token.isLead then .text "__Z" else token

@[simp] theorem underscored_source (ident : String) :
    (source ident).underscored = source ident := rfl

@[simp] theorem underscored_number (value : Nat) : (number value).underscored = number value := rfl

@[simp] theorem underscored_backRef (slot : Nat) : (backRef slot).underscored = backRef slot := rfl

theorem underscored_text {written : String} (other : written ≠ "_Z") :
    (text written).underscored = text written :=
  if_neg (by simpa [isLead] using other)

theorem write_cons (first : Token) (rest : List Token) :
    write (first :: rest) = first.chars ++ write rest :=
  List.flatMap_cons

end Token

/-- The tokens of a part of a name where symbols carry an extra underscore. -/
def underscore (tokens : List Token) : List Token := tokens.map Token.underscored

@[simp] theorem underscore_nil : underscore [] = [] := rfl

@[simp] theorem underscore_cons (first : Token) (rest : List Token) :
    underscore (first :: rest) = first.underscored :: underscore rest := rfl

@[simp] theorem underscore_append (left right : List Token) :
    underscore (left ++ right) = underscore left ++ underscore right :=
  List.map_append

/-- Each embedded name is longer by its underscore. -/
theorem length_write_underscore (tokens : List Token) :
    (Token.write (underscore tokens)).length =
      (Token.write tokens).length + tokens.countP Token.isLead := by
  induction tokens with
  | nil => rfl
  | cons first rest ih =>
      have head : first.underscored.chars.length =
          first.chars.length + if first.isLead then 1 else 0 := by
        by_cases lead : first.isLead
        · obtain rfl : first = .text "_Z" := by simpa [Token.isLead] using lead
          rfl
        · simp [Token.underscored, lead]
      simp only [underscore_cons, Token.write_cons, List.length_append, head, ih, List.countP_cons]
      omega

variable {graph : Graph}

/-- The encoding with the extra underscore in every part. -/
def Encoding.underscored (parts : Encoding graph) : Encoding graph where
  scope id := underscore <$> parts.scope id
  argument owner arg := underscore <$> parts.argument owner arg
  type id place := underscore <$> parts.type id place

/-! ## Slots

Whether a component has a slot does not depend on the tokens. -/

theorem concat_underscored {α : Type} (write : α → Encoder graph (List Token)) (list : List α) :
    LinkName.Encoder.concat (fun element => underscore <$> write element) list =
      underscore <$> LinkName.Encoder.concat write list := by
  induction list with
  | nil => simp [LinkName.Encoder.concat]
  | cons first rest ih => simp [LinkName.Encoder.concat, ih]

theorem orBackRef_underscored (component : Component) (write : Encoder graph (List Token)) :
    orBackRef component (underscore <$> write) = underscore <$> orBackRef component write := by
  simp only [orBackRef, map_bind]
  refine bind_congr fun found => ?_
  cases found <;> simp

theorem storeThen_underscored (component : Component) (write : Encoder graph (List Token)) :
    storeThen component (underscore <$> write) = underscore <$> storeThen component write := by
  simp only [storeThen, map_bind]

theorem thenStore_underscored (component : Component) (write : Encoder graph (List Token)) :
    thenStore component (underscore <$> write) = underscore <$> thenStore component write := by
  simp only [thenStore, map_bind, bind_map_left, map_pure]

theorem compound_underscored (id : TypeId) (write : Encoder graph (List Token)) :
    compound id (underscore <$> write) = underscore <$> compound id write := by
  simp only [compound, thenStore_underscored, orBackRef_underscored]

/-! ## Names and scopes -/

section

variable (parts : Encoding graph)

@[simp] theorem scope_underscored (id : SymbolId) :
    parts.underscored.scope id = underscore <$> parts.scope id := rfl

@[simp] theorem argument_part_underscored (owner : SymbolId) (arg : TemplateArg) :
    parts.underscored.argument owner arg = underscore <$> parts.argument owner arg := rfl

@[simp] theorem type_part_underscored (id : TypeId) (place : Place) :
    parts.underscored.type id place = underscore <$> parts.type id place := rfl

theorem arguments_underscored (owner : SymbolId) (args : List TemplateArg) :
    arguments parts.underscored owner args = underscore <$> arguments parts owner args := by
  induction args with
  | nil => simp [arguments]
  | cons first rest ih =>
      cases first with
      | pack inner =>
          cases rest with
          | nil =>
              have listed : LinkName.Encoder.concat (parts.underscored.argument owner) inner =
                  underscore <$> LinkName.Encoder.concat (parts.argument owner) inner :=
                concat_underscored (parts.argument owner) inner
              simp [arguments, listed, Token.underscored_text]
          | cons second rest => exact (LinkName.Encoder.map_refuseArgument _ _ _ _).symm
      | type | value | symbolAlias | typeAlias =>
          simp only [arguments, ih]
          simp

theorem sourceName_underscored (id : SymbolId) :
    sourceName parts.underscored id = underscore <$> sourceName parts id := by
  simp only [sourceName, map_bind]
  refine bind_congr fun symbol => ?_
  cases symbol.sort with
  | specialization template args =>
      -- The name of the template has no lead, so it is its own underscored form.
      have general : underscore <$> orBackRef (.symbol template) (storeThen (.symbol template)
          (pure [.source symbol.ident] : Encoder graph (List Token))) =
            orBackRef (.symbol template)
              (storeThen (.symbol template) (pure [.source symbol.ident])) := by
        simp only [← orBackRef_underscored, ← storeThen_underscored, map_pure, underscore_cons,
          underscore_nil, Token.underscored_source]
      calc
        _ = (underscore <$> orBackRef (.symbol template) (storeThen (.symbol template)
              (pure [.source symbol.ident] : Encoder graph (List Token)))) >>= fun name =>
                arguments parts.underscored id args >>= fun listed =>
                  pure (name ++ [.text "I"] ++ listed ++ [.text "E"]) := by rw [general]
        _ = _ := by simp [arguments_underscored, Token.underscored_text]
  | _ => simp

theorem enclosing_underscored (level : Level) (scope : SymbolId) :
    enclosing parts.underscored level scope = underscore <$> enclosing parts level scope := by
  simp only [enclosing, map_bind]
  refine bind_congr fun known => ?_
  cases known <;> simp

theorem scopeName_underscored (id : SymbolId) :
    scopeName parts.underscored id = underscore <$> scopeName parts id := by
  simp only [scopeName, ← orBackRef_underscored, ← storeThen_underscored, map_bind]
  congr 2
  refine bind_congr fun level => ?_
  cases level.scope <;> simp [enclosing_underscored, sourceName_underscored]

theorem qualifiedName_underscored (id : SymbolId) :
    qualifiedName parts.underscored id = underscore <$> qualifiedName parts id := by
  simp only [qualifiedName, map_bind]
  refine bind_congr fun level => ?_
  cases level.scope <;>
    simp [enclosing_underscored, sourceName_underscored, Token.underscored_text]

theorem mention_underscored (id : SymbolId) :
    mention parts.underscored id = underscore <$> mention parts id := by
  simp only [mention, qualifiedName_underscored, thenStore_underscored, orBackRef_underscored]

/-! ## Types -/

theorem parameters_underscored (signature : Signature) :
    parameters parts.underscored signature = underscore <$> parameters parts signature := by
  have each : (fun param => underscore <$> parameter parts param) =
      parameter parts.underscored := by
    funext param
    simp [parameter]
  have ending : underscore (parameterEnd signature) = parameterEnd signature := by
    unfold parameterEnd
    split
    · rfl
    · split <;> rfl
  simp [parameters, ← each, concat_underscored, ending]

@[simp] theorem constMark_underscored (node : TypeNode) :
    underscore (constMark node) = constMark node := by
  unfold constMark
  split <;> rfl

theorem builtin_ne_lead (machine : Target) (basic : BasicType) : builtin machine basic ≠ "_Z" := by
  cases basic <;> simp only [builtin] <;> (try split) <;> decide

theorem basicType_underscored (machine : Target) (id : TypeId) (node : TypeNode) (basic : BasicType) :
    underscore <$> (basicType machine id node basic : Encoder graph (List Token)) =
      basicType machine id node basic := by
  have written : underscore (constMark node ++ [.text (builtin machine basic)]) =
      constMark node ++ [.text (builtin machine basic)] := by
    simp [Token.underscored_text (builtin_ne_lead machine basic)]
  unfold basicType
  dsimp only
  split
  · rw [← orBackRef_underscored, ← storeThen_underscored, map_pure, written]
  · rw [map_pure, written]

theorem functionType_underscored (id : TypeId) (signature : Signature) :
    functionType parts.underscored id signature =
      underscore <$> functionType parts id signature := by
  unfold functionType
  rw [← compound_underscored]
  by_cases external : signature.linkage = .c <;>
    simp [external, parameters_underscored, Token.underscored_text]

theorem namedType_underscored (id : TypeId) (node : TypeNode) (symbol : SymbolId) :
    namedType parts.underscored id node symbol = underscore <$> namedType parts id node symbol := by
  simp [namedType, ← orBackRef_underscored, mention_underscored]

theorem classType_underscored (id : TypeId) (node : TypeNode) (symbol : SymbolId) (place : Place) :
    classType parts.underscored id node symbol place =
      underscore <$> classType parts id node symbol place := by
  cases place <;>
    simp [classType, ← compound_underscored, mention_underscored, Token.underscored_text]

theorem type_underscored (machine : Target) (id : TypeId) (place : Place) :
    type machine parts.underscored id place = underscore <$> type machine parts id place := by
  simp only [type, map_bind]
  refine bind_congr fun node => bind_congr fun _ => ?_
  cases node.form with
  | basic basic => exact (basicType_underscored machine id node basic).symm
  | function signature => exact functionType_underscored parts id signature
  | record symbol | enumeration symbol => exact namedType_underscored parts id node symbol
  | classRef symbol => exact classType_underscored parts id node symbol place
  | vector element | staticArray dim element | pointer target | reference target =>
      rw [← compound_underscored]
      simp [Token.underscored_text]
  | dynamicArray | assocArray | delegate | typedef =>
      exact (LinkName.Encoder.map_refuseType _ _ _).symm

end

/-! ## Declarations -/

/-- The name that the underscoring format gives for the tokens of a bare name. -/
def underscoreName : List Token → List Token
  | [] => [.text "_"]
  | first :: rest => .text "_" :: first :: underscore rest

/-- Whether an argument of the name embeds the name of a function or of a variable. -/
def embedsName (tokens : List Token) : Bool := tokens.tail.any Token.isLead

section

variable (parts : Encoding graph)

theorem ownName_underscored (info : FunctionInfo) (id : SymbolId) :
    ownName parts.underscored info id = underscore <$> ownName parts info id := by
  unfold ownName
  split
  · simp [Token.underscored_text]
  · exact sourceName_underscored parts id

theorem functionPath_underscored (info : FunctionInfo) (id : SymbolId) :
    functionPath parts.underscored info id = underscore <$> functionPath parts info id := by
  simp only [functionPath, map_bind]
  refine bind_congr fun scope => ?_
  cases scope with
  | none => exact sourceName_underscored parts id
  | some outer => cases info.isConst <;> simp [ownName_underscored, Token.underscored_text]

theorem literal_underscored (basic : BasicType) (number : Int) :
    underscore (literal basic number) = literal basic number := by
  unfold literal
  dsimp only
  split <;> simp [Token.underscored_text]

variable {machine : Target} (bare : machine.machO = false)
include bare

theorem lead_chars : machine.withUnderscore.lead.toList = '_' :: machine.lead.toList := by
  simp only [Target.lead, Target.withUnderscore, bare]
  rfl

theorem underscored_lead :
    (Token.text machine.lead).underscored = .text machine.withUnderscore.lead := by
  simp only [Target.lead, Target.withUnderscore, bare]
  rfl

/-- The name of a function as a part of another name. -/
theorem functionName_underscored (id : SymbolId) :
    functionName machine.withUnderscore parts.underscored id =
      underscore <$> functionName machine parts id := by
  simp only [functionName, map_bind]
  refine bind_congr fun symbol => ?_
  cases symbol.sort with
  | function info =>
      simp only [map_bind]
      refine bind_congr fun signature => ?_
      split <;>
        simp [functionPath_underscored, sourceName_underscored, parameters_underscored,
          underscored_lead bare]
  | _ => exact (LinkName.Encoder.map_refuseSymbol _ _).symm

/-- The name of a variable as a part of another name. -/
theorem variableName_underscored (id : SymbolId) :
    variableName machine.withUnderscore parts.underscored true id =
      underscore <$> variableName machine parts true id := by
  simp only [variableName, map_bind]
  refine bind_congr fun symbol => ?_
  cases symbol.sort with
  | var info =>
      simp only [map_bind]
      refine bind_congr fun _ => bind_congr fun scope => ?_
      cases scope <;> simp [sourceName_underscored, underscored_lead bare, Token.underscored_text]
  | _ => exact (LinkName.Encoder.map_refuseSymbol _ _).symm

theorem argument_underscored (owner : SymbolId) (arg : TemplateArg) :
    argument machine.withUnderscore parts.underscored owner arg =
      underscore <$> argument machine parts owner arg := by
  have refused (reason : ArgumentReason) :
      Encoder.refuseArgument owner arg reason =
        underscore <$> (Encoder.refuseArgument owner arg reason : Encoder graph (List Token)) :=
    (LinkName.Encoder.map_refuseArgument _ _ _ _).symm
  cases arg with
  | type id => rfl
  | value id number =>
      simp only [argument, map_bind]
      refine bind_congr fun node => ?_
      cases node.form.integral? with
      | none => exact refused .notIntegral
      | some basic => simp [literal_underscored, Token.underscored_text]
  | symbolAlias target =>
      simp only [argument, map_bind]
      refine bind_congr fun symbol => ?_
      match symbol.sort with
      | .function info =>
          simp only [map_bind]
          refine bind_congr fun signature => bind_congr fun scope => ?_
          split <;> simp [functionName_underscored parts bare, Token.underscored_text]
      | .var info => simp [variableName_underscored parts bare, Token.underscored_text]
      | .template (some member) => exact mention_underscored parts target
      | .template none | .moduleScope | .namespaceScope | .record _ | .enumeration
      | .specialization _ _ => exact refused .aliasTarget
  | typeAlias id => exact refused .aliasTarget
  | pack args => exact refused .nestedPack

theorem encoding_underscored (depth : Nat) :
    (encoding machine.withUnderscore depth : Encoding graph) =
      (encoding machine depth).underscored := by
  induction depth with
  | zero => rfl
  | succ depth ih =>
      simp only [encoding, Encoding.underscored, ih]
      congr 1
      · funext id
        exact scopeName_underscored _ id
      · funext owner arg
        exact argument_underscored _ bare owner arg
      · funext id place
        exact type_underscored _ machine id place

/-- The name of a function as a whole. -/
theorem write_functionName (id : SymbolId) :
    Token.write <$> functionName machine.withUnderscore parts.underscored id =
      (fun tokens => Token.write (underscoreName tokens)) <$> functionName machine parts id := by
  simp only [functionName, map_bind]
  refine bind_congr fun symbol => ?_
  cases symbol.sort with
  | function info =>
      simp only [map_bind]
      refine bind_congr fun signature => ?_
      split <;>
        simp [functionPath_underscored, sourceName_underscored, parameters_underscored,
          lead_chars bare, underscoreName, Token.write_cons, Token.chars]
  | _ => simp [LinkName.Encoder.map_refuseSymbol]

/-- The name of a variable as a whole. Outside every scope its one token is the identifier, which
may look like a lead without being one. -/
theorem write_variableName (id : SymbolId) :
    Token.write <$> variableName machine.withUnderscore parts.underscored false id =
      (fun tokens => Token.write (underscoreName tokens)) <$> variableName machine parts false id := by
  simp only [variableName, map_bind]
  refine bind_congr fun symbol => ?_
  cases symbol.sort with
  | var info =>
      simp only [map_bind]
      refine bind_congr fun _ => bind_congr fun scope => ?_
      cases scope with
      | none =>
          simp [freeVariable, Target.withUnderscore, bare, underscoreName, Token.write_cons,
            Token.chars]
      | some outer =>
          simp [sourceName_underscored, lead_chars bare, underscoreName, Token.write_cons,
            Token.chars, Token.underscored_text]
  | _ => simp [LinkName.Encoder.map_refuseSymbol]

theorem write_encode (id : SymbolId) :
    Token.write <$> (encode machine.withUnderscore id : Encoder graph (List Token)) =
      (fun tokens => Token.write (underscoreName tokens)) <$> encode machine id := by
  simp only [encode, map_bind, encoding_underscored bare]
  refine bind_congr fun symbol => ?_
  cases symbol.sort with
  | var info => exact write_variableName _ bare id
  | function info => exact write_functionName _ bare id
  | _ => simp [LinkName.Encoder.map_refuseSymbol]

end

/-- Only the underscores of embedded names, which make the text longer, tell the two apart. -/
theorem write_underscoreName_eq_iff (tokens : List Token) :
    Token.write (underscoreName tokens) = '_' :: Token.write tokens ↔
      embedsName tokens = false := by
  cases tokens with
  | nil => exact iff_of_true rfl rfl
  | cons first rest =>
      have opened : Token.write (underscoreName (first :: rest)) =
          '_' :: (first.chars ++ Token.write (underscore rest)) := rfl
      rw [opened, Token.write_cons, List.cons_inj_right, List.append_cancel_left_eq]
      constructor
      · intro same
        have lengths := length_write_underscore rest
        rw [same] at lengths
        simpa [embedsName, List.countP_eq_zero] using lengths
      · intro plain
        have fixed : rest.map Token.underscored = rest.map id :=
          List.map_congr_left fun token listed =>
            if_neg (by simpa using List.any_eq_false.mp plain token listed)
        rw [underscore, fixed, List.map_id]

end Itanium

/-- A format that puts an underscore before every symbol names and refuses the same declarations,
with the same refusals. Its name is the other format's name behind an underscore exactly where no
template argument embeds a name; each embedded name has an underscore of its own. -/
theorem nameFor_machO (graph : Graph) (target : Target) (id : SymbolId) :
    (∀ refusal, Itanium.nameFor graph { target with machO := true } id = .error refusal ↔
      Itanium.nameFor graph { target with machO := false } id = .error refusal) ∧
    ∀ text, Itanium.nameFor graph { target with machO := false } id = .ok text →
      ∃ tokens,
        Encoder.outcome (Itanium.encode { target with machO := false } id :
          Itanium.Encoder graph _) Table.unbounded = .ok tokens ∧
        text = String.ofList (Itanium.Token.write tokens) ∧
        Itanium.nameFor graph { target with machO := true } id =
          .ok (String.ofList (Itanium.Token.write (Itanium.underscoreName tokens))) ∧
        (Itanium.nameFor graph { target with machO := true } id = .ok ("_" ++ text) ↔
          Itanium.embedsName tokens = false) := by
  set bare := { target with machO := false }
  have written : Itanium.Token.write <$>
      (Itanium.encode bare.withUnderscore id : Itanium.Encoder graph _) =
        (fun tokens => Itanium.Token.write (Itanium.underscoreName tokens)) <$>
          Itanium.encode bare id := Itanium.write_encode rfl id
  have encoded := congrArg (Encoder.outcome · Table.unbounded) written
  simp only [Encoder.outcome_map] at encoded
  have elf : Itanium.nameFor graph { target with machO := false } id =
      (fun tokens => String.ofList (Itanium.Token.write tokens)) <$>
        Encoder.outcome (Itanium.encode bare id : Itanium.Encoder graph _) Table.unbounded :=
    bind_pure_comp ..
  have machO : Itanium.nameFor graph { target with machO := true } id =
      (fun tokens => String.ofList (Itanium.Token.write (Itanium.underscoreName tokens))) <$>
        Encoder.outcome (Itanium.encode bare id : Itanium.Encoder graph _) Table.unbounded := by
    have read := congrArg (String.ofList <$> ·) encoded
    simp only [Functor.map_map] at read
    exact (bind_pure_comp ..).trans read
  rw [elf, machO]
  cases Encoder.outcome (Itanium.encode bare id : Itanium.Encoder graph _) Table.unbounded with
  | error refusal => exact ⟨fun _ => Iff.rfl, by rintro text ⟨⟩⟩
  | ok tokens =>
      refine ⟨fun _ => ⟨by rintro ⟨⟩, by rintro ⟨⟩⟩, fun text named => ?_⟩
      cases named
      refine ⟨tokens, rfl, rfl, rfl, ?_⟩
      have front : "_" ++ String.ofList (Itanium.Token.write tokens) =
          String.ofList ('_' :: Itanium.Token.write tokens) := String.ext (by simp)
      rw [← Itanium.write_underscoreName_eq_iff, front]
      constructor
      · intro same
        exact String.ofList_inj.mp (Except.ok.inj same)
      · intro same
        exact congrArg (fun chars => Except.ok (String.ofList chars)) same

/-- A function that takes a specialization on a variable, beside one without parameters. -/
def gauges : Graph where
  symbols :=
    [{ ident := "app", sort := .moduleScope },
      { ident := "level", parent := some ⟨0⟩,
        sort := .var { type := ⟨0⟩, storage := { isGshared := true } } },
      { ident := "Gauge", parent := some ⟨0⟩, sort := .template none },
      { ident := "Gauge", parent := some ⟨0⟩, sort := .specialization ⟨2⟩ [.symbolAlias ⟨1⟩] },
      { ident := "read", parent := some ⟨0⟩, sort := .function { type := ⟨3⟩ } },
      { ident := "reset", parent := some ⟨0⟩, sort := .function { type := ⟨4⟩ } }]
  types :=
    [{ form := .basic .int32 }, { form := .basic .void }, { form := .record ⟨3⟩ },
      { form := .function { result := ⟨0⟩, params := [{ type := ⟨2⟩ }] } },
      { form := .function { result := ⟨1⟩ } }]

theorem gauges_built : gauges.Built :=
  Graph.built_of_takeAll?
    [.symbol { ident := "app", sort := .moduleScope }, .type { form := .basic .int32 },
      .type { form := .basic .void },
      .symbol
        { ident := "level", parent := some ⟨0⟩,
          sort := .var { type := ⟨0⟩, storage := { isGshared := true } } },
      .symbol { ident := "Gauge", parent := some ⟨0⟩, sort := .template none },
      .specialization ⟨2⟩ [.symbolAlias ⟨1⟩], .type { form := .record ⟨3⟩ },
      .type { form := .function { result := ⟨0⟩, params := [{ type := ⟨2⟩ }] } },
      .type { form := .function { result := ⟨1⟩ } },
      .symbol { ident := "read", parent := some ⟨0⟩, sort := .function { type := ⟨3⟩ } },
      .symbol { ident := "reset", parent := some ⟨0⟩, sort := .function { type := ⟨4⟩ } }] rfl

/-- Without an embedded name, there is one underscore at the front. -/
theorem nameFor_machO_reset :
    ∃ text, Itanium.nameFor gauges { Target.itanium64 with machO := false } ⟨5⟩ = .ok text ∧
      Itanium.nameFor gauges { Target.itanium64 with machO := true } ⟨5⟩ = .ok ("_" ++ text) := by
  have named : Itanium.nameFor gauges { Target.itanium64 with machO := false } ⟨5⟩ =
      .ok "_Z5resetv" := by decide +kernel
  obtain ⟨tokens, encoded, -, -, exact⟩ :=
    (nameFor_machO gauges .itanium64 ⟨5⟩).2 "_Z5resetv" named
  have plain : Itanium.embedsName [.text "_Z", .source "reset", .text "v"] = false := by decide
  exact ⟨_, named, exact.mpr (Except.ok.inj (encoded.symm.trans rfl) ▸ plain)⟩

/-- With an embedded name, a second underscore stands in the middle. -/
theorem nameFor_machO_gauges :
    gauges.Built ∧ Target.itanium64.abi = .itanium ∧
      Itanium.nameFor gauges { Target.itanium64 with machO := false } ⟨4⟩ =
        .ok "_Z4read5GaugeIL_Z5levelEE" ∧
      Itanium.nameFor gauges { Target.itanium64 with machO := true } ⟨4⟩ =
        .ok "__Z4read5GaugeIL__Z5levelEE" ∧
      Itanium.nameFor gauges { Target.itanium64 with machO := true } ⟨4⟩ ≠
        .ok ("_" ++ "_Z4read5GaugeIL_Z5levelEE") := by
  refine ⟨gauges_built, rfl, ?_, ?_, ?_⟩ <;> decide +kernel

end LinkName
