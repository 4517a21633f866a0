import LinkName.Proofs.Graph.Scope
import LinkName.Proofs.Type.Relabeling
import LinkName.Proofs.Type.Weight

/-!
Graphs inside other graphs. An embedding carries every symbol and every type node of one graph to
the same symbol or node of another, with its handles relabeled. Scopes, trees and texts are carried
along with it.
-/
namespace LinkName

/-- New handles for old ones. -/
structure Relabeling where
  symbol : SymbolId → SymbolId
  type : TypeId → TypeId

namespace Relabeling

def id : Relabeling where
  symbol handle := handle
  type handle := handle

end Relabeling

mutual

def TemplateArg.relabel (labels : Relabeling) : TemplateArg → TemplateArg
  | .type id => .type (labels.type id)
  | .value id number => .value (labels.type id) number
  | .symbolAlias id => .symbolAlias (labels.symbol id)
  | .typeAlias id => .typeAlias (labels.type id)
  | .pack args => .pack (TemplateArg.relabelAll labels args)

def TemplateArg.relabelAll (labels : Relabeling) : List TemplateArg → List TemplateArg
  | [] => []
  | first :: rest => first.relabel labels :: TemplateArg.relabelAll labels rest

end

section

variable (labels : Relabeling)

def FunctionInfo.relabel (info : FunctionInfo) : FunctionInfo :=
  { info with type := labels.type info.type }

def VariableInfo.relabel (info : VariableInfo) : VariableInfo :=
  { info with type := labels.type info.type }

def SymbolSort.relabel : SymbolSort → SymbolSort
  | .template member => .template (member.map labels.symbol)
  | .specialization general args =>
    .specialization (labels.symbol general) (TemplateArg.relabelAll labels args)
  | .function info => .function (info.relabel labels)
  | .var info => .var (info.relabel labels)
  | .moduleScope => .moduleScope
  | .namespaceScope => .namespaceScope
  | .record kind => .record kind
  | .enumeration => .enumeration

def Symbol.relabel (symbol : Symbol) : Symbol :=
  { symbol with
    parent := symbol.parent.map labels.symbol
    sort := symbol.sort.relabel labels }

def Param.relabel (param : Param) : Param :=
  { param with type := labels.type param.type }

def Signature.relabel (signature : Signature) : Signature :=
  { signature with
    result := labels.type signature.result
    params := signature.params.map (Param.relabel labels) }

def TypeForm.relabel : TypeForm → TypeForm
  | .basic builtin => .basic builtin
  | .pointer target => .pointer (labels.type target)
  | .reference target => .reference (labels.type target)
  | .staticArray dim element => .staticArray dim (labels.type element)
  | .vector element => .vector (labels.type element)
  | .function signature => .function (signature.relabel labels)
  | .record symbol => .record (labels.symbol symbol)
  | .enumeration symbol base => .enumeration (labels.symbol symbol) base
  | .classRef symbol => .classRef (labels.symbol symbol)
  | .dynamicArray element => .dynamicArray (labels.type element)
  | .assocArray key value => .assocArray (labels.type key) (labels.type value)
  | .delegate inner => .delegate (labels.type inner)
  | .typedef symbol => .typedef (labels.symbol symbol)

def TypeNode.relabel (node : TypeNode) : TypeNode :=
  { node with form := node.form.relabel labels }

def Level.relabel (level : Level) : Level where
  name := labels.symbol level.name
  scope := level.scope.map labels.symbol
  template := level.template.map labels.symbol

end

/-- Every handle relabeled, and every type node and symbol found under its new handle. -/
structure Graph.Embeds (graph graph' : Graph) (labels : Relabeling) : Prop where
  injective : Function.Injective labels.symbol
  symbol : ∀ id, graph'.symbols[(labels.symbol id).index]? =
    graph.symbols[id.index]?.map (Symbol.relabel labels)
  type : ∀ id, graph'.types[(labels.type id).index]? =
    graph.types[id.index]?.map (TypeNode.relabel labels)

/-! ## Relabeling little by little -/

section

variable {labels other : Relabeling}

theorem TemplateArg.relabelAll_eq_map (args : List TemplateArg) :
    relabelAll labels args = args.map (relabel labels) := by
  induction args with
  | nil => rfl
  | cons first rest ih => rw [relabelAll, ih, List.map_cons]

/-- Renamings that agree about what an argument names. -/
def Relabeling.Agree (labels other : Relabeling) : Entity → Prop
  | .symbol id => labels.symbol id = other.symbol id
  | .type id => labels.type id = other.type id

mutual

theorem TemplateArg.relabel_congr (arg : TemplateArg)
    (agree : ∀ leaf ∈ arg.leaves, ∀ entity ∈ leaf.named?, labels.Agree other entity) :
    arg.relabel labels = arg.relabel other := by
  cases arg with
  | pack args => exact congrArg TemplateArg.pack (TemplateArg.relabelAll_congr args agree)
  | type id | typeAlias id => exact congrArg _ (agree _ List.mem_cons_self (.type id) rfl)
  | value id number =>
      exact congrArg (TemplateArg.value · number) (agree _ List.mem_cons_self (.type id) rfl)
  | symbolAlias id => exact congrArg _ (agree _ List.mem_cons_self (.symbol id) rfl)

theorem TemplateArg.relabelAll_congr (args : List TemplateArg)
    (agree : ∀ leaf ∈ TemplateArg.leavesOf args, ∀ entity ∈ leaf.named?,
      labels.Agree other entity) :
    TemplateArg.relabelAll labels args = TemplateArg.relabelAll other args := by
  cases args with
  | nil => rfl
  | cons first rest =>
      have head := TemplateArg.relabel_congr first fun leaf listed =>
        agree leaf (List.mem_append_left _ listed)
      have tail := TemplateArg.relabelAll_congr rest fun leaf listed =>
        agree leaf (List.mem_append_right _ listed)
      rw [TemplateArg.relabelAll, head, tail, TemplateArg.relabelAll]

end

mutual

theorem TemplateArg.leaves_relabel (arg : TemplateArg) :
    (arg.relabel labels).leaves = arg.leaves.map (relabel labels) := by
  cases arg with
  | pack args => exact TemplateArg.leavesOf_relabelAll args
  | _ => rfl

theorem TemplateArg.leavesOf_relabelAll (args : List TemplateArg) :
    TemplateArg.leavesOf (TemplateArg.relabelAll labels args) =
      (TemplateArg.leavesOf args).map (TemplateArg.relabel labels) := by
  cases args with
  | nil => rfl
  | cons first rest =>
      rw [TemplateArg.relabelAll, TemplateArg.leavesOf, TemplateArg.leaves_relabel first,
        TemplateArg.leavesOf_relabelAll rest, TemplateArg.leavesOf, List.map_append]

end

theorem Symbol.relabel_congr {symbol : Symbol}
    (agree : ∀ entity ∈ symbol.mentions, labels.Agree other entity)
    (member : ∀ id, symbol.sort = .template (some id) → labels.symbol id = other.symbol id) :
    symbol.relabel labels = symbol.relabel other := by
  rcases symbol with ⟨ident, parent, access, sort⟩
  have scope : parent.map labels.symbol = parent.map other.symbol :=
    Option.map_congr fun id same => agree (.symbol id)
      (List.mem_append_left _ (by simpa using same))
  have inside : sort.relabel labels = sort.relabel other := by
    have agree : ∀ entity ∈ sort.mentions, labels.Agree other entity :=
      fun entity listed => agree entity (List.mem_append_right _ listed)
    cases sort with
    | template inner =>
        exact congrArg SymbolSort.template (Option.map_congr fun id same =>
          member id (by rw [Option.mem_def.mp same]))
    | specialization template args =>
        have general : labels.symbol template = other.symbol template :=
          agree (.symbol template) List.mem_cons_self
        have args := TemplateArg.relabelAll_congr args fun leaf listed entity named =>
          agree entity (List.mem_cons_of_mem _ (List.mem_filterMap.mpr ⟨leaf, listed, named⟩))
        rw [SymbolSort.relabel, SymbolSort.relabel, general, args]
    | function info =>
        have type : labels.type info.type = other.type info.type :=
          agree (.type info.type) List.mem_cons_self
        simp only [SymbolSort.relabel, FunctionInfo.relabel, type]
    | var info =>
        have type : labels.type info.type = other.type info.type :=
          agree (.type info.type) List.mem_cons_self
        simp only [SymbolSort.relabel, VariableInfo.relabel, type]
    | _ => rfl
  simp only [relabel, scope, inside]

theorem TypeNode.relabel_congr {node : TypeNode}
    (agree : ∀ entity ∈ node.form.mentions, labels.Agree other entity) :
    node.relabel labels = node.relabel other := by
  rcases node with ⟨form, quals⟩
  have types : ∀ id ∈ form.parts, labels.type id = other.type id :=
    fun id listed => agree (.type id) (List.mem_append_left _ (List.mem_map_of_mem listed))
  have symbols : ∀ id ∈ form.symbol?, labels.symbol id = other.symbol id :=
    fun id named => agree (.symbol id) (List.mem_append_right _ (by simpa using named))
  cases form with
  | function signature =>
      have result := types signature.result List.mem_cons_self
      have params : signature.params.map (Param.relabel labels) =
          signature.params.map (Param.relabel other) :=
        List.map_congr_left fun param listed => by
          rw [Param.relabel, Param.relabel,
            types param.type (List.mem_cons_of_mem _ (List.mem_map_of_mem listed))]
      simp only [TypeNode.relabel, TypeForm.relabel, Signature.relabel, result, params]
  | basic => rfl
  | record id | enumeration id _ | classRef id | typedef id =>
      simp only [TypeNode.relabel, TypeForm.relabel, symbols id rfl]
  | assocArray key value =>
      simp only [TypeNode.relabel, TypeForm.relabel, types key (by simp [TypeForm.parts]),
        types value (by simp [TypeForm.parts])]
  | _ => simp only [TypeNode.relabel, TypeForm.relabel, types _ List.mem_cons_self]

mutual

theorem TemplateArg.relabel_id (arg : TemplateArg) : arg.relabel .id = arg := by
  cases arg with
  | pack args => exact congrArg TemplateArg.pack (TemplateArg.relabelAll_id args)
  | _ => rfl

theorem TemplateArg.relabelAll_id (args : List TemplateArg) :
    TemplateArg.relabelAll .id args = args := by
  cases args with
  | nil => rfl
  | cons first rest =>
      rw [TemplateArg.relabelAll, TemplateArg.relabel_id first, TemplateArg.relabelAll_id rest]

end

theorem Symbol.relabel_id (symbol : Symbol) : symbol.relabel .id = symbol := by
  rcases symbol with ⟨ident, parent, access, sort⟩
  cases sort <;> simp [relabel, SymbolSort.relabel, Relabeling.id, FunctionInfo.relabel,
    VariableInfo.relabel]
  exact TemplateArg.relabelAll_id _

theorem Param.relabel_id (param : Param) : param.relabel .id = param := rfl

theorem TypeNode.relabel_id (node : TypeNode) : node.relabel .id = node := by
  rcases node with ⟨form, quals⟩
  cases form with
  | function signature =>
      have params : signature.params.map (Param.relabel .id) = signature.params :=
        List.map_id'' Param.relabel_id _
      simp only [relabel, TypeForm.relabel, Signature.relabel, params]
      rfl
  | _ => rfl

end

/-! ## What an embedding carries along -/

theorem TypeNode.tree_relabel {labels : Relabeling} {node : TypeNode} {part part' : TypeId → TypeTree}
    (parts : ∀ id ∈ node.form.parts, part' (labels.type id) = (part id).relabel labels.symbol) :
    (node.relabel labels).tree part' = (node.tree part).relabel labels.symbol := by
  rcases node with ⟨form, quals⟩
  cases form with
  | basic | record | enumeration | classRef | typedef => rfl
  | function signature =>
      have result := parts signature.result List.mem_cons_self
      have params : signature.params.map (fun param =>
            (param.passing, part' (labels.type param.type))) =
          signature.params.map fun param =>
            (param.passing, (part param.type).relabel labels.symbol) :=
        List.map_congr_left fun param listed => by
          rw [parts param.type (List.mem_cons_of_mem _ (List.mem_map_of_mem listed))]
      simp only [relabel, TypeForm.relabel, tree, Signature.relabel, TypeTree.relabel_function,
        List.map_map, Function.comp_def, Param.relabel, result, params]
      rfl
  | assocArray key value =>
      simp only [relabel, TypeForm.relabel, tree, TypeTree.relabel_assocArray,
        parts key (by simp [TypeForm.parts]), parts value (by simp [TypeForm.parts])]
  | _ => simp only [relabel, TypeForm.relabel, tree, TypeTree.relabel_layer,
      parts _ List.mem_cons_self]

namespace Symbol

variable (labels : Relabeling) (symbol : Symbol)

theorem isModule_relabel : (symbol.relabel labels).isModule = symbol.isModule := by
  rcases symbol with ⟨ident, parent, access, sort⟩
  cases sort <;> rfl

theorem template?_relabel :
    (symbol.relabel labels).template? = symbol.template?.map labels.symbol := by
  rcases symbol with ⟨ident, parent, access, sort⟩
  cases sort <;> rfl

end Symbol

namespace Graph

theorem levelsWithin_mono {graph : Graph} {fuel more : Nat} {id : SymbolId} {names : List SymbolId}
    (found : graph.levelsWithin fuel id = .ok names) (enough : fuel ≤ more) :
    graph.levelsWithin more id = .ok names := by
  induction fuel generalizing more id names with
  | zero => cases found
  | succ fuel ih =>
      obtain ⟨more, rfl⟩ := Nat.exists_eq_add_of_lt (Nat.lt_of_succ_le enough)
      rw [levelsWithin_succ_eq_ok_iff] at found ⊢
      obtain ⟨level, symbol, known, stored, ends⟩ := found
      refine ⟨level, symbol, known, stored, ends.imp_right fun ⟨other, ends⟩ => ⟨other, ?_⟩⟩
      rcases ends with top | ⟨parent, rest, scope, further, same⟩
      · exact .inl top
      · exact .inr ⟨parent, rest, scope, ih further (by omega), same⟩

/-- Every symbol of one graph is found in another under its new handle. -/
def CarriesSymbols (graph graph' : Graph) (labels : Relabeling) : Prop :=
  ∀ id symbol, graph.symbol id = .ok symbol →
    graph'.symbol (labels.symbol id) = .ok (symbol.relabel labels)

namespace CarriesSymbols

variable {graph graph' : Graph} {labels : Relabeling} {id : SymbolId}
variable (carries : CarriesSymbols graph graph' labels)
include carries

theorem scopeParent {scope : Option SymbolId} (found : graph.scopeParent id = .ok scope) :
    graph'.scopeParent (labels.symbol id) = .ok (scope.map labels.symbol) := by
  obtain ⟨symbol, stored, ends⟩ := scopeParent_eq_ok_iff.mp found
  refine scopeParent_eq_ok_iff.mpr ⟨_, carries _ _ stored, ?_⟩
  have parents : (symbol.relabel labels).parent = symbol.parent.map labels.symbol := rfl
  rcases ends with ⟨top, rfl⟩ | ⟨parent, outer, above, known, rfl⟩
  · exact .inl ⟨by rw [parents, top]; rfl, rfl⟩
  · refine .inr ⟨labels.symbol parent, _, by rw [parents, above]; rfl, carries _ _ known, ?_⟩
    rw [Symbol.isModule_relabel]
    cases outer.isModule <;> rfl

theorem level {level : Level} (found : graph.level id = .ok level) :
    graph'.level (labels.symbol id) = .ok (level.relabel labels) := by
  obtain ⟨symbol, stored, ends⟩ := level_eq_ok_iff.mp found
  refine level_eq_ok_iff.mpr ⟨_, carries _ _ stored, ?_⟩
  have parents : (symbol.relabel labels).parent = symbol.parent.map labels.symbol := rfl
  rcases ends with ⟨top, rfl⟩ | ⟨parent, outer, above, known, ends⟩
  · exact .inl ⟨by rw [parents, top]; rfl, rfl⟩
  · refine .inr ⟨labels.symbol parent, _, by rw [parents, above]; rfl, carries _ _ known, ?_⟩
    rw [Symbol.template?_relabel, Symbol.isModule_relabel]
    rcases ends with ⟨plain, rfl⟩ | ⟨template, scope, special, around, rfl⟩
    · refine .inl ⟨by rw [plain]; rfl, ?_⟩
      cases outer.isModule <;> rfl
    · exact .inr ⟨labels.symbol template, _, by rw [special]; rfl, carries.scopeParent around, rfl⟩

end CarriesSymbols

namespace Embeds

variable {graph graph' : Graph} {labels : Relabeling} {id : SymbolId}

theorem refl (graph : Graph) : Embeds graph graph .id where
  injective _ _ same := same
  symbol id := by
    rw [funext Symbol.relabel_id]
    exact Option.map_id'.symm
  type id := by
    rw [funext TypeNode.relabel_id]
    exact Option.map_id'.symm

variable (embeds : Embeds graph graph' labels)
include embeds

theorem symbol_eq_ok {symbol : Symbol} (found : graph.symbol id = .ok symbol) :
    graph'.symbol (labels.symbol id) = .ok (symbol.relabel labels) := by
  rw [Graph.symbol_eq_ok_iff] at found ⊢
  rw [embeds.symbol, found, Option.map_some]

theorem symbol_eq_error {fault : Fault} (missing : graph.symbol id = .error fault) :
    ∃ fault', graph'.symbol (labels.symbol id) = .error fault' := by
  have none : graph.symbols[id.index]? = none := by
    unfold Graph.symbol at missing
    split at missing
    · cases missing
    · next none => exact none
  refine ⟨.noSymbol (labels.symbol id), ?_⟩
  rw [Graph.symbol, embeds.symbol, none, Option.map_none]

theorem type_eq_ok {id : TypeId} {node : TypeNode} (found : graph.type id = .ok node) :
    graph'.type (labels.type id) = .ok (node.relabel labels) := by
  rw [Graph.type_eq_ok_iff] at found ⊢
  rw [embeds.type, found, Option.map_some]

theorem holds_symbol (held : graph.Holds (.symbol id)) :
    graph'.Holds (.symbol (labels.symbol id)) := by
  obtain ⟨symbol, found⟩ := holds_symbol_iff.mp held
  exact holds_symbol_iff.mpr ⟨_, embeds.symbol_eq_ok found⟩

theorem carriesSymbols : graph.CarriesSymbols graph' labels :=
  fun _ _ => embeds.symbol_eq_ok

theorem scopeParent {scope : Option SymbolId} (found : graph.scopeParent id = .ok scope) :
    graph'.scopeParent (labels.symbol id) = .ok (scope.map labels.symbol) :=
  embeds.carriesSymbols.scopeParent found

theorem level {level : Level} (found : graph.level id = .ok level) :
    graph'.level (labels.symbol id) = .ok (level.relabel labels) :=
  embeds.carriesSymbols.level found

theorem levelsWithin {fuel : Nat} {names : List SymbolId}
    (found : graph.levelsWithin fuel id = .ok names) :
    graph'.levelsWithin fuel (labels.symbol id) = .ok (names.map labels.symbol) := by
  induction fuel generalizing id names with
  | zero => cases found
  | succ fuel ih =>
      obtain ⟨level, symbol, known, stored, ends⟩ := levelsWithin_succ_eq_ok_iff.mp found
      refine levelsWithin_succ_eq_ok_iff.mpr
        ⟨_, _, embeds.level known, embeds.symbol_eq_ok stored, ?_⟩
      have parents : (symbol.relabel labels).parent = symbol.parent.map labels.symbol := rfl
      rw [Symbol.isModule_relabel, parents]
      rcases ends with ⟨module, rfl⟩ | ⟨other, ⟨top, rfl⟩ | ⟨parent, rest, above, further, rfl⟩⟩
      · exact .inl ⟨module, rfl⟩
      · exact .inr ⟨other, .inl ⟨by rw [top]; rfl, rfl⟩⟩
      · exact .inr ⟨other, .inr ⟨_, _, by rw [above]; rfl, ih further, rfl⟩⟩

theorem levels (formed' : graph'.WellFormed) {names : List SymbolId}
    (held : graph.Holds (.symbol id)) (found : graph.levels id = .ok names) :
    graph'.levels (labels.symbol id) = .ok (names.map labels.symbol) := by
  obtain ⟨names', found', -⟩ := formed'.levels_eq_ok (embeds.holds_symbol held)
  have here := levelsWithin_mono (embeds.levelsWithin found)
    (Nat.le_max_left _ (graph'.symbols.length + 1))
  have there := levelsWithin_mono found' (Nat.le_max_right (graph.symbols.length + 1) _)
  rw [found', ← Except.ok.inj (here.symm.trans there)]

theorem tree (formed : graph.WellFormed) (formed' : graph'.WellFormed) {id : TypeId}
    (held : graph.Holds (.type id)) :
    graph'.tree (labels.type id) = (graph.tree id).relabel labels.symbol := by
  have unfolds := formed.unfolds_tree held {}
  revert unfolds
  generalize graph.tree id = tree
  intro unfolds
  clear held
  induction unfolds with
  | @node id node part found _ ih =>
      have stored : graph.type id = .ok node := by
        rcases Overlay.type_cases found with known | ⟨-, derived⟩
        · exact known
        · simp at derived
      rw [formed'.tree_eq (embeds.type_eq_ok stored), TypeNode.tree_relabel ih]

theorem argumentText (formed : graph.WellFormed) (formed' : graph'.WellFormed)
    {symbol symbol' : SymbolId → String} (texts : ∀ id, symbol' (labels.symbol id) = symbol id)
    {arg : TemplateArg} (held : ∀ entity ∈ arg.named?, graph.Holds entity) :
    graph'.argumentText symbol' (arg.relabel labels) = graph.argumentText symbol arg := by
  have same : symbol' ∘ labels.symbol = symbol := funext texts
  cases arg with
  | type id | typeAlias id =>
      simp only [TemplateArg.relabel, Graph.argumentText, embeds.tree formed formed' (held _ rfl),
        TypeTree.spell_relabel, same]
  | value id number => rfl
  | symbolAlias id => exact texts id
  | pack args => rfl

theorem nameText (formed : graph.WellFormed) (formed' : graph'.WellFormed)
    {symbol symbol' : SymbolId → String} (texts : ∀ id, symbol' (labels.symbol id) = symbol id)
    {found : Symbol} (stored : graph.symbol id = .ok found) :
    graph'.nameText symbol' (found.relabel labels) = graph.nameText symbol found := by
  have held : ∀ entity ∈ found.mentions, graph.Holds entity := by
    rw [← mentions_symbol stored]
    exact formed.closed _
  rcases found with ⟨ident, parent, access, sort⟩
  cases sort with
  | specialization template args =>
      have leaves : TemplateArg.leavesOf (TemplateArg.relabelAll labels args) =
          (TemplateArg.leavesOf args).map (TemplateArg.relabel labels) :=
        TemplateArg.leavesOf_relabelAll args
      have texts : ∀ arg ∈ TemplateArg.leavesOf args,
          graph'.argumentText symbol' (arg.relabel labels) = graph.argumentText symbol arg :=
        fun arg leaf => embeds.argumentText formed formed' texts fun entity named =>
          held entity (List.mem_append_right _
            (List.mem_cons_of_mem _ (List.mem_filterMap.mpr ⟨arg, leaf, named⟩)))
      simp only [Graph.nameText, Symbol.relabel, SymbolSort.relabel, leaves, List.map_map,
        Function.comp_def]
      rw [List.map_congr_left texts]
  | _ => rfl

theorem pathText (formed : graph.WellFormed) (formed' : graph'.WellFormed)
    {symbol symbol' : SymbolId → String} (texts : ∀ id, symbol' (labels.symbol id) = symbol id)
    {found : Symbol} (stored : graph.symbol id = .ok found) :
    graph'.pathText symbol' (found.relabel labels) = graph.pathText symbol found := by
  have name := embeds.nameText formed formed' texts stored
  have parent : (found.relabel labels).parent = found.parent.map labels.symbol := rfl
  have ident : (found.relabel labels).ident = found.ident := rfl
  unfold Graph.pathText
  rw [name, parent, ident]
  cases scope : found.parent with
  | none => rfl
  | some parent =>
      obtain ⟨outer, known⟩ := formed.symbol_mention (mentions_parent stored scope)
      have special := Symbol.template?_relabel labels outer
      have same : (outer.relabel labels).ident = outer.ident := rfl
      simp only [Option.map_some, known, embeds.symbol_eq_ok known, special, same, texts,
        Option.isSome_map]

theorem textWithin (formed : graph.WellFormed) (formed' : graph'.WellFormed) (fuel : Nat)
    (id : SymbolId) : graph'.textWithin fuel (labels.symbol id) = graph.textWithin fuel id := by
  induction fuel generalizing id with
  | zero => rfl
  | succ fuel ih =>
      simp only [Graph.textWithin]
      cases stored : graph.symbol id with
      | error fault =>
          obtain ⟨fault', missing⟩ := embeds.symbol_eq_error stored
          simp only [missing]
      | ok found =>
          simp only [embeds.symbol_eq_ok stored]
          exact embeds.pathText formed formed' ih stored

theorem text (formed : graph.WellFormed) (formed' : graph'.WellFormed) (id : SymbolId) :
    graph'.text (labels.symbol id) = graph.text id := by
  rcases Nat.lt_or_ge id.index graph.symbols.length with held | outside
  · obtain ⟨fuel, enough, enough'⟩ : ∃ fuel, graph.symbols.length + graph.types.length ≤ fuel ∧
        graph'.symbols.length + graph'.types.length ≤ fuel :=
      ⟨max _ _, Nat.le_max_left _ _, Nat.le_max_right _ _⟩
    rw [← formed.textWithin_eq_text held enough,
      ← formed'.textWithin_eq_text (embeds.holds_symbol held) enough',
      embeds.textWithin formed formed']
  · have missing : graph.symbol id = .error (.noSymbol id) := by
      rw [Graph.symbol, List.getElem?_eq_none outside]
    obtain ⟨fault', missing'⟩ := embeds.symbol_eq_error missing
    rw [text_of_missing missing, text_of_missing missing']

theorem argumentText_text (formed : graph.WellFormed) (formed' : graph'.WellFormed)
    {arg : TemplateArg} (held : ∀ entity ∈ arg.named?, graph.Holds entity) :
    graph'.argumentText graph'.text (arg.relabel labels) = graph.argumentText graph.text arg :=
  embeds.argumentText formed formed' (embeds.text formed formed') held

theorem spell_text (formed : graph.WellFormed) (formed' : graph'.WellFormed) (tree : TypeTree) :
    (tree.relabel labels.symbol).spell graph'.text = tree.spell graph.text := by
  rw [TypeTree.spell_relabel]
  exact congrArg (TypeTree.spell · tree) (funext (embeds.text formed formed'))

end Embeds

end Graph

end LinkName
