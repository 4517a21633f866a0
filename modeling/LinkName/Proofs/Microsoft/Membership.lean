import LinkName.Proofs.Graph.Levels
import LinkName.Proofs.Microsoft.Digits

/-!
How a variable is marked as belonging to its scope. Before its type stands a digit for its access, or
a `3` if it is in no scope or directly in a module; a function without a receiver has a letter for its
access just in a record. In a record and in a module the two say the same, and elsewhere they do not.
After the type stands an `E` on 64-bit targets, if the type is a pointer or a reference.
-/
namespace LinkName

/-! ## Scopes -/

/-- A pointer or a reference. -/
def TypeForm.isAddress : TypeForm → Bool
  | .pointer _ | .reference _ => true
  | _ => false

namespace Graph

/-- The symbol is in no scope, or directly in a module. -/
def IsFree (graph : Graph) (symbol : Symbol) : Prop :=
  ∀ parent ∈ symbol.parent, ∃ outer, graph.symbol parent = .ok outer ∧ outer.isModule = true

/-- The symbol is a member of a record. -/
def InRecord (graph : Graph) (symbol : Symbol) : Prop :=
  ∃ parent ∈ symbol.parent, ∃ outer kind, graph.symbol parent = .ok outer ∧ outer.sort = .record kind

variable {graph : Graph} {symbol : Symbol}

theorem IsFree.not_inRecord (free : graph.IsFree symbol) : ¬ graph.InRecord symbol := by
  rintro ⟨parent, above, outer, kind, stored, sort⟩
  obtain ⟨outer', stored', isModule⟩ := free parent above
  obtain rfl := Except.ok.inj (stored.symm.trans stored')
  rw [Symbol.isModule, sort] at isModule
  cases isModule

theorem isFree_iff_scopeParent {id : SymbolId} {scope : Option SymbolId}
    (stored : graph.symbol id = .ok symbol) (found : graph.scopeParent id = .ok scope) :
    graph.IsFree symbol ↔ scope = none := by
  rcases scopeParent_cases stored found with ⟨top, rfl⟩ | ⟨parent, outer, above, stored', rest⟩
  · simp [IsFree, top]
  · have known : (∃ outer', graph.symbol parent = .ok outer' ∧ outer'.isModule = true) ↔
        outer.isModule = true := by simp [stored']
    rcases rest with ⟨isModule, rfl⟩ | ⟨other, rfl⟩
    · simp [IsFree, above, known, isModule]
    · simp [IsFree, above, known, other]

end Graph

namespace Microsoft

variable {graph : Graph} {machine : Target} {parts : Encoding graph} {id : SymbolId} {symbol : Symbol}
variable {session last : Session graph Tables} {tokens : List Token}

/-- The tokens are those of a declaration with `mark` between its qualified name and its type. -/
def MarkedBy (machine : Target) (parts : Encoding graph) (id : SymbolId) (session : Session graph Tables)
    (type : Encoder graph (List Token)) (ending tokens : List Token) (mark : String) : Prop :=
  ∃ name middle written last, (qualifiedName machine parts id).run session = .ok name middle ∧
    type.run middle = .ok written last ∧
    tokens = [.text "?"] ++ name ++ [.text mark] ++ written ++ ending

theorem variableEnd_eq_ite (machine : Target) (node : TypeNode) : variableEnd machine node =
    (if machine.is64Bit && node.form.isAddress then [.text "E"] else []) ++
      [.text (if node.isConst then "B" else "A")] := by
  obtain ⟨form, quals⟩ := node
  cases wide : machine.is64Bit <;> cases form <;>
    simp [variableEnd, width, wide, TypeForm.isAddress]

/-- How a variable is written, and by what its scope is marked. -/
theorem variableName_eq_ok {info : VariableInfo} {node : TypeNode}
    (stored : graph.symbol id = .ok symbol) (sort : symbol.sort = .var info)
    (typed : graph.type info.type = .ok node)
    (written : (variableName machine parts id).run session = .ok tokens last) :
    ∃ mark, MarkedBy machine parts id session (variableType parts info.type node)
        ((if machine.is64Bit && node.form.isAddress then [.text "E"] else []) ++
          [.text (if node.isConst then "B" else "A")]) tokens mark ∧
      (graph.IsFree symbol ∧ mark = "3" ∨ ¬ graph.IsFree symbol ∧ mark = memberCode symbol.access) := by
  rw [variableName, Encoder.symbol_eq_pure stored, pure_bind] at written
  simp only [sort] at written
  obtain ⟨⟨⟩, _, linkable, fromName⟩ := Encoder.run_bind_eq_ok written
  obtain ⟨-, rfl⟩ := Encoder.run_demand_eq_ok (fun _ => Encoder.run_refuseStorage_ne id ()) linkable
  obtain ⟨name, middle, named, fromScope⟩ := Encoder.run_bind_eq_ok fromName
  obtain ⟨scope, _, asked, fromNode⟩ := Encoder.run_bind_eq_ok fromScope
  obtain ⟨found, rfl⟩ := Encoder.run_ofExcept_eq_ok asked
  rw [Encoder.run_type_bind (Overlay.type_of_graph typed)] at fromNode
  obtain ⟨⟨⟩, _, native, fromType⟩ := Encoder.run_bind_eq_ok fromNode
  obtain ⟨-, rfl⟩ :=
    Encoder.run_demand_eq_ok (fun _ => Encoder.run_refuseType_ne .foreignQualifiers ()) native
  obtain ⟨type, _, typeWritten, put⟩ := Encoder.run_bind_eq_ok fromType
  obtain ⟨rfl, rfl⟩ := Encoder.run_pure_eq_ok put
  refine ⟨if scope.isSome then memberCode symbol.access else "3",
    ⟨name, _, type, _, named, typeWritten, ?_⟩, ?_⟩
  · rw [variableEnd_eq_ite]
  · rw [Graph.isFree_iff_scopeParent stored found]
    cases scope with
    | none => exact .inl ⟨rfl, rfl⟩
    | some outer => exact .inr ⟨Option.some_ne_none outer, rfl⟩

theorem isMember_eq_ok {member : Bool}
    (ran : (isMember symbol : Encoder graph Bool).run session = .ok member last) :
    last = session ∧
      (graph.InRecord symbol ∧ member = true ∨ ¬ graph.InRecord symbol ∧ member = false) := by
  unfold isMember at ran
  cases above : symbol.parent with
  | none =>
      simp only [above] at ran
      obtain ⟨rfl, rfl⟩ := Encoder.run_pure_eq_ok ran
      exact ⟨rfl, .inr ⟨by simp [Graph.InRecord, above], rfl⟩⟩
  | some parent =>
      simp only [above] at ran
      obtain ⟨outer, _, read, answered⟩ := Encoder.run_bind_eq_ok ran
      obtain ⟨stored, rfl⟩ := Encoder.run_ofExcept_eq_ok read
      have known : graph.InRecord symbol ↔ ∃ kind, outer.sort = .record kind := by
        simp [Graph.InRecord, above, stored]
      rw [known]
      split at answered
      · next kind record =>
        obtain ⟨rfl, rfl⟩ := Encoder.run_pure_eq_ok answered
        exact ⟨rfl, .inl ⟨⟨kind, record⟩, rfl⟩⟩
      · next other =>
        obtain ⟨rfl, rfl⟩ := Encoder.run_pure_eq_ok answered
        exact ⟨rfl, .inr ⟨fun ⟨kind, record⟩ => other kind record, rfl⟩⟩

/-- How a function without a receiver is written, and by what its scope is marked. -/
theorem functionName_eq_ok {info : FunctionInfo} (stored : graph.symbol id = .ok symbol)
    (sort : symbol.sort = .function info) (noReceiver : info.needsThis = false)
    (written : (functionName machine parts id).run session = .ok tokens last) :
    ∃ letter, MarkedBy machine parts id session
        (functionType machine parts info.type false (info.role != .plain)) [] tokens letter ∧
      (graph.InRecord symbol ∧ letter = staticCode symbol.access ∨
        ¬ graph.InRecord symbol ∧ letter = "Y") := by
  rw [functionName, Encoder.symbol_eq_pure stored, pure_bind] at written
  simp only [sort] at written
  obtain ⟨name, middle, named, fromScope⟩ := Encoder.run_bind_eq_ok written
  obtain ⟨member, _, asked, fromType⟩ := Encoder.run_bind_eq_ok fromScope
  obtain ⟨rfl, inRecord⟩ := isMember_eq_ok asked
  obtain ⟨type, _, typeWritten, put⟩ := Encoder.run_bind_eq_ok fromType
  obtain ⟨rfl, rfl⟩ := Encoder.run_pure_eq_ok put
  rw [noReceiver] at typeWritten
  refine ⟨if member then staticCode symbol.access else "Y", ⟨name, _, type, _, named, typeWritten, ?_⟩,
    ?_⟩
  · rw [placement, noReceiver, if_neg Bool.false_ne_true, List.append_nil]
  · rcases inRecord with ⟨inside, rfl⟩ | ⟨outside, rfl⟩
    · exact .inl ⟨inside, rfl⟩
    · exact .inr ⟨outside, rfl⟩

theorem staticCode_ne (access : Access) : staticCode access ≠ "Y" := by cases access <;> decide

theorem memberCode_ne (access : Access) : memberCode access ≠ "3" := by cases access <;> decide

/-- A variable that is in no scope or directly in a module is marked by a `3`, and one in any other
scope by a digit for its access; on 64-bit targets an `E` stands before its last letter if its type is
a pointer or a reference. A function without a receiver in the same scope is marked by a letter for
its access if the scope is a record, and otherwise by a `Y`. So the two agree just in records, in
modules and outside all scopes. -/
theorem variable_classified {info : VariableInfo} {node : TypeNode}
    (stored : graph.symbol id = .ok symbol) (sort : symbol.sort = .var info)
    (typed : graph.type info.type = .ok node) :
    (∀ target text, nameFor graph target id = .ok text →
      ∃ (tokens : List Token) (last : Session graph Tables),
        text = String.ofList (Token.write tokens) ∧
        (variableName target
          (encoding target (Encoder.depthBound graph)) id).run
            { tables := Tables.bounded 10 } = .ok tokens last) ∧
    ∀ (machine : Target) (parts : Encoding graph) (session last : Session graph Tables) tokens,
      (variableName machine parts id).run session = .ok tokens last →
      ∃ mark, MarkedBy machine parts id session (variableType parts info.type node)
          ((if machine.is64Bit && node.form.isAddress then [.text "E"] else []) ++
            [.text (if node.isConst then "B" else "A")]) tokens mark ∧
        (graph.IsFree symbol ∧ mark = "3" ∨
          ¬ graph.IsFree symbol ∧ mark = memberCode symbol.access) ∧
        ∀ function other (info : FunctionInfo), graph.symbol function = .ok other →
          other.sort = .function info → info.needsThis = false → other.parent = symbol.parent →
          ∀ (session last : Session graph Tables) tokens,
            (functionName machine parts function).run session = .ok tokens last →
            ∃ letter, MarkedBy machine parts function session
                (functionType machine parts info.type false (info.role != .plain)) [] tokens letter ∧
              (graph.InRecord symbol ∧ letter = staticCode other.access ∨
                ¬ graph.InRecord symbol ∧ letter = "Y") ∧
              ((mark = "3" ↔ letter = "Y") ↔ graph.IsFree symbol ∨ graph.InRecord symbol) := by
  refine ⟨fun target text named => ?_, fun machine parts session last tokens written => ?_⟩
  · obtain ⟨tokens, last, ran, same⟩ := run_of_nameFor named
    rw [encode, Encoder.symbol_eq_pure stored, pure_bind] at ran
    simp only [sort] at ran
    exact ⟨tokens, last, same, ran⟩
  · obtain ⟨mark, marked, place⟩ := variableName_eq_ok stored sort typed written
    refine ⟨mark, marked, place, fun function other info stored' sort' noReceiver beside => ?_⟩
    intro session last tokens written'
    obtain ⟨letter, marked', place'⟩ := functionName_eq_ok stored' sort' noReceiver written'
    have same : graph.InRecord other ↔ graph.InRecord symbol := by
      rw [Graph.InRecord, Graph.InRecord, beside]
    rw [same] at place'
    refine ⟨letter, marked', place', ?_⟩
    rcases place with ⟨free, rfl⟩ | ⟨inside, rfl⟩ <;>
      rcases place' with ⟨member, rfl⟩ | ⟨apart, rfl⟩
    · exact absurd member free.not_inRecord
    · simp [free]
    · simp [member, memberCode_ne, staticCode_ne]
    · simp [inside, apart, memberCode_ne]

/-- In a class of a module, in a namespace of it, and in the module itself. -/
def harbors : Graph where
  symbols :=
    [{ ident := "app", sort := .moduleScope },
      { ident := "Owner", parent := some ⟨0⟩, sort := .record .klass },
      { ident := "geo", parent := some ⟨0⟩, sort := .namespaceScope },
      { ident := "count", parent := some ⟨1⟩, access := .prot,
        sort := .var { type := ⟨0⟩, storage := { isExtern := true } } },
      { ident := "tally", parent := some ⟨1⟩, access := .prot, sort := .function { type := ⟨2⟩ } },
      { ident := "depth", parent := some ⟨2⟩,
        sort := .var { type := ⟨0⟩, storage := { isExtern := true } } },
      { ident := "sound", parent := some ⟨2⟩, sort := .function { type := ⟨2⟩ } },
      { ident := "pilot", parent := some ⟨0⟩,
        sort := .var { type := ⟨3⟩, storage := { isExtern := true } } },
      { ident := "owner", parent := some ⟨0⟩,
        sort := .var { type := ⟨4⟩, storage := { isExtern := true } } }]
  types :=
    [{ form := .basic .int32 }, { form := .basic .void }, { form := .function { result := ⟨1⟩ } },
      { form := .pointer ⟨0⟩ }, { form := .classRef ⟨1⟩ }]

theorem harbors_built : harbors.Built :=
  Graph.built_of_takeAll?
    [.symbol { ident := "app", sort := .moduleScope },
      .symbol { ident := "Owner", parent := some ⟨0⟩, sort := .record .klass },
      .symbol { ident := "geo", parent := some ⟨0⟩, sort := .namespaceScope },
      .type { form := .basic .int32 }, .type { form := .basic .void },
      .type { form := .function { result := ⟨1⟩ } }, .type { form := .pointer ⟨0⟩ },
      .type { form := .classRef ⟨1⟩ },
      .symbol { ident := "count", parent := some ⟨1⟩, access := .prot,
                sort := .var { type := ⟨0⟩, storage := { isExtern := true } } },
      .symbol { ident := "tally", parent := some ⟨1⟩, access := .prot,
                sort := .function { type := ⟨2⟩ } },
      .symbol { ident := "depth", parent := some ⟨2⟩,
                sort := .var { type := ⟨0⟩, storage := { isExtern := true } } },
      .symbol { ident := "sound", parent := some ⟨2⟩, sort := .function { type := ⟨2⟩ } },
      .symbol { ident := "pilot", parent := some ⟨0⟩,
                sort := .var { type := ⟨3⟩, storage := { isExtern := true } } },
      .symbol { ident := "owner", parent := some ⟨0⟩,
                sort := .var { type := ⟨4⟩, storage := { isExtern := true } } }] rfl

/-- How the parts of the names in `harbors` are written. -/
def harborParts : Encoding harbors :=
  encoding Target.microsoft64 (Encoder.depthBound harbors)

/-- A static variable of a class is marked as the static function beside it is. -/
theorem variable_classified_count :
    nameFor harbors .microsoft64 ⟨3⟩ = .ok "?count@Owner@@1HA" ∧
    nameFor harbors .microsoft64 ⟨4⟩ = .ok "?tally@Owner@@KAXXZ" ∧
    ∃ tokens tokens' mark letter, "?count@Owner@@1HA" = String.ofList (Token.write tokens) ∧
      MarkedBy Target.microsoft64 harborParts ⟨3⟩ { tables := Tables.bounded 10 }
        (variableType harborParts ⟨0⟩ { form := .basic .int32 }) [.text "A"] tokens mark ∧
      "?tally@Owner@@KAXXZ" = String.ofList (Token.write tokens') ∧
      MarkedBy Target.microsoft64 harborParts ⟨4⟩ { tables := Tables.bounded 10 }
        (functionType Target.microsoft64 harborParts ⟨2⟩ false false) [] tokens' letter ∧
      (mark = "3" ↔ letter = "Y") := by
  have named : nameFor harbors .microsoft64 ⟨3⟩ = .ok "?count@Owner@@1HA" := by decide +kernel
  have named' : nameFor harbors .microsoft64 ⟨4⟩ = .ok "?tally@Owner@@KAXXZ" := by decide +kernel
  obtain ⟨runs, marks⟩ := variable_classified (show harbors.symbol ⟨3⟩ = _ from rfl) rfl rfl
  obtain ⟨tokens, last, same, ran⟩ := runs .microsoft64 _ named
  obtain ⟨mark, marked, -, beside⟩ := marks _ harborParts _ _ _ ran
  obtain ⟨tokens', last', ran', same'⟩ := run_of_nameFor named'
  obtain ⟨letter, marked', -, agree⟩ := beside ⟨4⟩ _ _ rfl rfl rfl rfl _ _ _ ran'
  exact ⟨named, named', tokens, tokens', mark, letter, same, marked, same', marked',
    agree.mpr (.inr ⟨⟨1⟩, rfl, _, .klass, rfl, rfl⟩)⟩

/-- The variable in the namespace is marked as a static member is, other than the function beside it;
and a class, which is written as a pointer, has no `E` before the last letter. -/
theorem variables_misclassified :
    harbors.Built ∧
      nameFor harbors .microsoft64 ⟨5⟩ = .ok "?depth@geo@@2HA" ∧
      nameFor harbors .microsoft64 ⟨6⟩ = .ok "?sound@geo@@YAXXZ" ∧
      nameFor harbors .microsoft64 ⟨7⟩ = .ok "?pilot@@3PEAHEA" ∧
      nameFor harbors .microsoft64 ⟨8⟩ = .ok "?owner@@3PEAVOwner@@A" := by
  refine ⟨harbors_built, ?_, ?_, ?_, ?_⟩ <;> decide +kernel

end Microsoft

end LinkName
