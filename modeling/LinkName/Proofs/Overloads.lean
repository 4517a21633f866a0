import LinkName.Naming
import LinkName.Proofs.Graph.Construction
import LinkName.Proofs.Itanium.Legible

/-!
Overloads. Functions of one scope and one identifier have different names wherever C++ tells their
parameters apart.
-/
namespace LinkName

namespace Graph

variable (graph : Graph)

/-- The C++ type of a parameter, in its normal form. -/
def cppType (param : Param) : TypeTree :=
  (TypeTree.parameter (param.passing, graph.tree param.type)).normal

/-- A function with C++ linkage. -/
structure IsCppFunction (id : SymbolId) (symbol : Symbol) (info : FunctionInfo)
    (signature : Signature) : Prop where
  stored : graph.symbol id = .ok symbol
  sort : symbol.sort = .function info
  typed : ∃ quals, graph.type info.type = .ok { form := .function signature, quals }
  linkage : signature.linkage = .cpp

end Graph

namespace Itanium

variable {graph : Graph} {machine : Target}

/-- A name is what the script of its declaration writes. -/
theorem declaration_run (formed : graph.WellFormed) (order : graph.Order) {target : Target}
    {id : SymbolId} (held : graph.Holds (.symbol id)) {text : String}
    (named : nameFor graph target id = .ok text) :
    ∃ tokens last, ((Plan.settled order target).declaration graph target
        id).run Table.unbounded = .ok (tokens, last) ∧ text.toList = Token.write tokens := by
  unfold nameFor name at named
  rw [show (Table.unbounded : Table Component) = { limit := none } from rfl,
    outcome_eq_run formed order target held] at named
  rw [show (Table.unbounded : Table Key) = { limit := none } from rfl]
  cases ran : ((Plan.settled order target).declaration graph target id).run
      { limit := none } with
  | error refusal =>
      rw [ran] at named
      cases named
  | ok reached =>
      rw [ran] at named
      cases named
      exact ⟨reached.1, reached.2, rfl, String.toList_ofList⟩

/-- Functions of one scope and one name differ in their parameter lists only. -/
theorem functionPath_congr (plain : graph.SpecializationFree) {plan : Plan} {id id' : SymbolId}
    {symbol symbol' : Symbol} {info info' : FunctionInfo} (stored : graph.symbol id = .ok symbol)
    (stored' : graph.symbol id' = .ok symbol') (parents : symbol.parent = symbol'.parent)
    (idents : symbol.ident = symbol'.ident) (roles : info.role = info'.role)
    (consts : info.isConst = info'.isConst) :
    plan.functionPath graph info id = plan.functionPath graph info' id' :=
  Plan.functionPath_congr stored stored' (plain id symbol stored) (plain id' symbol' stored') parents
    idents roles consts

theorem paramTold_of_declared (telling : graph.Telling) (formed : graph.WellFormed)
    (order : graph.Order) {id : SymbolId} {symbol : Symbol} {info : FunctionInfo}
    {signature : Signature} (declared : graph.IsCppFunction id symbol info signature) :
    ∀ param ∈ signature.params.map fun param => (param.passing, graph.tree param.type),
      ParamTold graph param := by
  obtain ⟨quals, typed⟩ := declared.typed
  have held : graph.Holds (.type info.type) := Graph.holds_type_iff.mpr ⟨_, typed⟩
  have told := telling.told_tree formed held
  have heldItem : (LinkName.Item.type (graph.tree info.type) .nested : Item).Held graph :=
    formed.holds_symbols held
  rw [formed.tree_eq typed] at told heldItem
  exact paramTold_of_function formed order told heldItem

/-- The name of a function is its path and then its parameters. -/
theorem declaration_of_function (formed : graph.WellFormed) {plan : Plan} {id : SymbolId}
    {symbol : Symbol} {info : FunctionInfo} {signature : Signature}
    (declared : graph.IsCppFunction id symbol info signature) :
    plan.declaration graph machine id = .append (.write [.text machine.lead])
      (.append (plan.functionPath graph info id) (plan.parameters graph
        (signature.params.map fun param => (param.passing, graph.tree param.type))
        signature.variadic)) := by
  obtain ⟨quals, typed⟩ := declared.typed
  simp only [Plan.declaration, declared.stored, Script.ofExcept, declared.sort, Plan.functionName,
    formed.tree_eq typed, TypeNode.tree, Signature.convention, declared.linkage, if_true]

end Itanium

/-- Overloads that share a name take the same C++ parameters: functions of one scope, identifier,
role and constness have one name only if both or neither end in an ellipsis, and their parameters
are pairwise one C++ type. -/
theorem nameFor_tells_overloads {graph : Graph} (built : graph.Built) (telling : graph.Telling)
    (target : Target) {id id' : SymbolId} {symbol symbol' : Symbol} {info info' : FunctionInfo}
    {signature signature' : Signature} (declared : graph.IsCppFunction id symbol info signature)
    (declared' : graph.IsCppFunction id' symbol' info' signature')
    (parents : symbol.parent = symbol'.parent) (idents : symbol.ident = symbol'.ident)
    (roles : info.role = info'.role) (consts : info.isConst = info'.isConst) {text : String}
    (named : Itanium.nameFor graph target id = .ok text)
    (named' : Itanium.nameFor graph target id' = .ok text) :
    signature.variadic = signature'.variadic ∧
      signature.params.map graph.cppType = signature'.params.map graph.cppType := by
  have formed := built.wellFormed
  have order := formed.order
  have held : graph.Holds (.symbol id) := Graph.holds_symbol_iff.mpr ⟨symbol, declared.stored⟩
  have held' : graph.Holds (.symbol id') := Graph.holds_symbol_iff.mpr ⟨symbol', declared'.stored⟩
  obtain ⟨tokens, last, ran, written⟩ := Itanium.declaration_run formed order held named
  obtain ⟨tokens', last', ran', written'⟩ := Itanium.declaration_run formed order held' named'
  have same : Itanium.Token.write tokens ++ [] = Itanium.Token.write tokens' ++ [] := by
    rw [← written, ← written']
  rw [Itanium.declaration_of_function formed declared] at ran
  rw [Itanium.declaration_of_function formed declared',
    ← Itanium.functionPath_congr telling.plain declared.stored declared'.stored parents idents roles
      consts] at ran'
  obtain ⟨_, inner, rfl⟩ := Itanium.Script.run_write_append ran
  obtain ⟨_, inner', rfl⟩ := Itanium.Script.run_write_append ran'
  -- Both names start with one path, which leaves one table behind.
  obtain ⟨path, middle, listed, begun, ended, rfl⟩ := Itanium.Script.run_append inner
  obtain ⟨path', middle', listed', begun', ended', rfl⟩ := Itanium.Script.run_append inner'
  cases begun.symm.trans begun'
  simp only [Itanium.Token.write_append, List.append_assoc, List.append_cancel_left_eq] at same
  have each := Itanium.paramTold_of_declared telling formed order declared
  have each' := Itanium.paramTold_of_declared telling formed order declared'
  obtain ⟨variadics, alike, -, -⟩ := Itanium.parameters_read telling formed rfl
    (fun param listed => Itanium.type_legible telling formed (each param listed).told
      (each param listed).held) each each' ended ended' (by simp) (by simp) same
  refine ⟨variadics, ?_⟩
  rw [List.map_map, List.map_map] at alike
  exact alike

/-- Two functions of one name: one takes a const record and an integer by reference, the other the
record and a reference. -/
def drawings : Graph where
  symbols :=
    [{ ident := "app", sort := .moduleScope },
      { ident := "geo", parent := some ⟨0⟩, sort := .namespaceScope },
      { ident := "Point", parent := some ⟨1⟩, sort := .record .struct },
      { ident := "draw", parent := some ⟨0⟩, sort := .function { type := ⟨5⟩ } },
      { ident := "draw", parent := some ⟨0⟩, sort := .function { type := ⟨6⟩ } }]
  types :=
    [{ form := .basic .int32 }, { form := .basic .void }, { form := .record ⟨2⟩ },
      { form := .record ⟨2⟩, quals := { isConst := true } }, { form := .reference ⟨0⟩ },
      { form := .function
          { result := ⟨1⟩, params := [{ type := ⟨3⟩ }, { type := ⟨0⟩, passing := .ref }] } },
      { form := .function { result := ⟨1⟩, params := [{ type := ⟨2⟩ }, { type := ⟨4⟩ }] } }]

theorem drawings_built : drawings.Built :=
  Graph.built_of_takeAll?
    [.symbol { ident := "app", sort := .moduleScope },
      .symbol { ident := "geo", parent := some ⟨0⟩, sort := .namespaceScope },
      .symbol { ident := "Point", parent := some ⟨1⟩, sort := .record .struct },
      .type { form := .basic .int32 }, .type { form := .basic .void },
      .type { form := .record ⟨2⟩ }, .type { form := .record ⟨2⟩, quals := { isConst := true } },
      .type { form := .reference ⟨0⟩ },
      .type
        { form := .function
            { result := ⟨1⟩, params := [{ type := ⟨3⟩ }, { type := ⟨0⟩, passing := .ref }] } },
      .type { form := .function { result := ⟨1⟩, params := [{ type := ⟨2⟩ }, { type := ⟨4⟩ }] } },
      .symbol { ident := "draw", parent := some ⟨0⟩, sort := .function { type := ⟨5⟩ } },
      .symbol { ident := "draw", parent := some ⟨0⟩, sort := .function { type := ⟨6⟩ } }] rfl

theorem drawings_names {naming : Naming} {symbol : SymbolId}
    (names : drawings.Names naming symbol) : naming = .record ∧ symbol = ⟨2⟩ := by
  obtain ⟨⟨_ | _ | _ | _ | _ | _ | _ | index⟩, node, stored, named⟩ := names <;> cases stored <;>
    cases named <;> exact ⟨rfl, rfl⟩

theorem drawings_addressed {id : SymbolId} (addressed : drawings.Addressed id) :
    id = ⟨1⟩ ∨ id = ⟨2⟩ := by
  rcases addressed with ⟨⟨_ | _ | _ | _ | _ | index⟩, found⟩ | ⟨naming, names⟩
  · cases found
  · cases found
  · cases found
    exact .inl rfl
  · cases found
  · cases found
  · cases found
  · exact .inr (drawings_names names).2

theorem drawings_telling : drawings.Telling where
  plain := by
    rintro ⟨_ | _ | _ | _ | _ | index⟩ symbol stored <;> cases stored <;> rfl
  idents := by
    rintro ⟨_ | _ | _ | _ | _ | index⟩ symbol stored <;> cases stored <;> exact ⟨_, rfl, rfl⟩
  paths := by
    intro id other addressed also same
    rcases drawings_addressed addressed with rfl | rfl <;>
      rcases drawings_addressed also with rfl | rfl <;> first | rfl | exact absurd same (by decide)
  namings := by
    intro naming naming' symbol names names'
    rw [(drawings_names names).1, (drawings_names names').1]
  voids := by
    rintro ⟨_ | _ | _ | _ | _ | _ | _ | index⟩ signature quals stored param listed value node known <;>
      cases stored
    all_goals
      simp only [List.mem_cons, List.not_mem_nil, or_false] at listed
      rcases listed with rfl | rfl <;> cases known <;> rintro ⟨⟩

theorem nameFor_tells_drawings :
    Itanium.nameFor drawings .itanium64 ⟨3⟩ = .ok "_Z4drawN3geo5PointERi" ∧
      Itanium.nameFor drawings .itanium64 ⟨4⟩ = .ok "_Z4drawN3geo5PointERi" ∧
      [drawings.cppType { type := ⟨3⟩ }, drawings.cppType { type := ⟨0⟩, passing := .ref }] =
        [drawings.cppType { type := ⟨2⟩ }, drawings.cppType { type := ⟨4⟩ }] := by
  have named : Itanium.nameFor drawings .itanium64 ⟨3⟩ = .ok "_Z4drawN3geo5PointERi" := by
    decide +kernel
  have named' : Itanium.nameFor drawings .itanium64 ⟨4⟩ = .ok "_Z4drawN3geo5PointERi" := by
    decide +kernel
  have declared : drawings.IsCppFunction ⟨3⟩ _ _ _ := ⟨rfl, rfl, ⟨{}, rfl⟩, rfl⟩
  have declared' : drawings.IsCppFunction ⟨4⟩ _ _ _ := ⟨rfl, rfl, ⟨{}, rfl⟩, rfl⟩
  have told := nameFor_tells_overloads drawings_built drawings_telling .itanium64 declared declared'
    rfl rfl rfl rfl named named'
  exact ⟨named, named', told.2⟩

end LinkName
