import LinkName.Decl.Spelling
import LinkName.Proofs.Type.Unfolding

/-!
The text of a diagnostic, read off trees. In a well-formed graph every symbol and every type has a
text, and it does not depend on what else has been derived when the text is made.
-/
namespace LinkName

/-- How a type is spelled by itself, and how as the function of a delegate. -/
structure Wording where
  text : String
  delegate : String

def Wording.plain (text : String) : Wording where
  text := text
  delegate := text ++ " delegate"

def Layer.spell (text : String) : Layer → String
  | .pointer => text ++ "*"
  | .reference => "ref " ++ text
  | .staticArray dim => text ++ "[" ++ toString dim ++ "]"
  | .vector => "__vector(" ++ text ++ ")"
  | .dynamicArray => text ++ "[]"
  | .delegate => text ++ " delegate"

def Passing.spell (text : String) : Passing → String
  | .value => text
  | .ref => "ref " ++ text
  | .out => "out " ++ text
  | .lazy => "lazy " ++ text

def Convention.spell (keyword result : String) (params : List String)
    (convention : Convention) : String :=
  let ellipsis := if convention.variadic then ["..."] else []
  let result := if convention.refResult then "ref " ++ result else result
  result ++ " " ++ keyword ++ "(" ++ ", ".intercalate (params ++ ellipsis) ++ ")"

namespace TypeTree

/-- The wording of a type from the wordings of its parts and the texts of symbols. -/
def wording (symbol : SymbolId → String) : Algebra Wording where
  basic builtin quals := .plain (quals.wrap builtin.spelling)
  layer around inner quals :=
    match around with
    | .delegate => .plain (quals.wrap inner.delegate)
    | around => .plain (quals.wrap (around.spell inner.text))
  named _ id quals := .plain (quals.wrap (symbol id))
  assocArray key value quals := .plain (quals.wrap (value.text ++ "[" ++ key.text ++ "]"))
  function result params convention quals :=
    let params := params.map fun param => param.1.spell param.2.text
    { text := quals.wrap (convention.spell "function" result.text params)
      delegate := convention.spell "delegate" result.text params }

def spell (symbol : SymbolId → String) (tree : TypeTree) : String :=
  (tree.fold (wording symbol)).text

end TypeTree

namespace Graph

variable (graph : Graph) (symbol : SymbolId → String)

def argumentText : TemplateArg → String
  | .type id | .typeAlias id => (graph.tree id).spell symbol
  | .value _ number => toString number
  | .symbolAlias id => symbol id
  | .pack _ => "..."

/-- The last level of a path. -/
def nameText (found : Symbol) : String :=
  match found.sort with
  | .specialization _ args =>
    found.ident ++ "!(" ++
      ", ".intercalate ((TemplateArg.leavesOf args).map (graph.argumentText symbol)) ++ ")"
  | _ => found.ident

def pathText (found : Symbol) : String :=
  match found.parent with
  | none => graph.nameText symbol found
  | some parent =>
    match graph.symbol parent with
    | .error _ => ""
    | .ok outer =>
      if outer.template?.isSome && outer.ident == found.ident then symbol parent
      else symbol parent ++ "." ++ graph.nameText symbol found

def textWithin : Nat → SymbolId → String
  | 0, _ => ""
  | fuel + 1, id =>
    match graph.symbol id with
    | .error _ => ""
    | .ok found => graph.pathText (textWithin fuel) found

/-- The dotted path of a symbol. -/
def text (id : SymbolId) : String :=
  graph.textWithin (graph.symbols.length + graph.types.length) id

end Graph

/-! ## The speller finds these texts -/

theorem mapM_eq_ok {α β ε : Type} {list : List α} {step : α → Except ε β} {value : α → β}
    (each : ∀ element ∈ list, step element = .ok (value element)) :
    list.mapM step = .ok (list.map value) := by
  induction list with
  | nil => rfl
  | cons first rest ih =>
      rw [List.mapM_cons, each first List.mem_cons_self,
        ih fun element listed => each element (List.mem_cons_of_mem _ listed)]
      rfl

namespace Speller

variable {graph : Graph} {inner : Speller} {symbol : SymbolId → String}

theorem signature_eq_ok {keyword : String} {signature : Signature} {part : TypeId → TypeTree}
    (types : ∀ id ∈ (TypeForm.function signature).parts,
      inner.type id = .ok ((part id).spell symbol)) :
    inner.signature keyword signature = .ok (signature.convention.spell keyword
      ((part signature.result).spell symbol)
      (signature.params.map fun param => param.passing.spell ((part param.type).spell symbol))) := by
  have result := types signature.result List.mem_cons_self
  have params : signature.params.mapM inner.param =
      .ok (signature.params.map fun param =>
        param.passing.spell ((part param.type).spell symbol)) := by
    refine mapM_eq_ok fun param listed => ?_
    have type := types param.type (List.mem_cons_of_mem _ (List.mem_map_of_mem listed))
    simp only [Speller.param, type, bind, Except.bind]
    cases param.passing <;> rfl
  simp only [Speller.signature, result, params, bind, Except.bind]
  rfl

theorem argument_eq_ok {arg : TemplateArg}
    (types : ∀ id, .type id ∈ arg.named? → inner.type id = .ok ((graph.tree id).spell symbol))
    (symbols : ∀ id, .symbol id ∈ arg.named? → inner.symbol id = .ok (symbol id)) :
    inner.argument arg = .ok (graph.argumentText symbol arg) := by
  cases arg with
  | type id | typeAlias id => exact types id rfl
  | value id number => rfl
  | symbolAlias id => exact symbols id rfl
  | pack args => rfl

end Speller

namespace Graph

variable {graph : Graph} {inner : Speller} {symbol : SymbolId → String} {found : Symbol}

theorem spellName_eq_ok
    (types : ∀ id, .type id ∈ found.mentions →
      inner.type id = .ok ((graph.tree id).spell symbol))
    (symbols : ∀ id, .symbol id ∈ found.mentions → inner.symbol id = .ok (symbol id)) :
    spellName inner found = .ok (graph.nameText symbol found) := by
  rcases found with ⟨ident, parent, access, sort⟩
  cases sort with
  | specialization template args =>
      have listed : ∀ arg ∈ TemplateArg.leavesOf args, ∀ entity ∈ arg.named?,
          entity ∈ (SymbolSort.specialization template args).mentions :=
        fun arg leaf entity named =>
          List.mem_cons_of_mem _ (List.mem_filterMap.mpr ⟨arg, leaf, named⟩)
      have spelled := mapM_eq_ok fun arg leaf => Speller.argument_eq_ok
        (fun id named => types id (List.mem_append_right _ (listed arg leaf _ named)))
        (fun id named => symbols id (List.mem_append_right _ (listed arg leaf _ named)))
      rw [spellName_specialization inner _ rfl, spelled]
      rfl
  | _ => rfl

theorem spellPath_eq_ok (formed : graph.WellFormed) {id : SymbolId}
    (stored : graph.symbol id = .ok found)
    (types : ∀ id, .type id ∈ found.mentions →
      inner.type id = .ok ((graph.tree id).spell symbol))
    (symbols : ∀ id, .symbol id ∈ found.mentions → inner.symbol id = .ok (symbol id)) :
    graph.spellPath inner id = .ok (graph.pathText symbol found) := by
  have name := spellName_eq_ok types symbols
  simp only [spellPath, pathText, stored, bind, Except.bind]
  cases scope : found.parent with
  | none => exact name
  | some parent =>
      have mentioned : .symbol parent ∈ found.mentions :=
        List.mem_append_left _ (by simp [scope])
      obtain ⟨outer, known⟩ := holds_symbol_iff.mp
        (formed.closed (.symbol id) (.symbol parent) (by rwa [mentions_symbol stored]))
      simp only [known, symbols parent mentioned, name]
      split <;> rfl

end Graph

namespace TypeTree

variable {symbol : SymbolId → String}

/-- A function is worded in two ways, everything else in one. -/
theorem fold_wording_plain {tree : TypeTree}
    (plain : ∀ result params convention quals, tree ≠ .function result params convention quals) :
    tree.fold (wording symbol) = .plain (tree.spell symbol) := by
  cases tree with
  | basic | named | assocArray => rfl
  | layer around inner quals => cases around <;> rfl
  | function result params convention quals => exact absurd rfl (plain result params convention quals)

theorem fold_wording_function (result : TypeTree) (params : List (Passing × TypeTree))
    (convention : Convention) (quals : Qualifiers) :
    (TypeTree.function result params convention quals).fold (wording symbol) =
      let params := params.map fun param => param.1.spell (param.2.spell symbol)
      { text := quals.wrap (convention.spell "function" (result.spell symbol) params)
        delegate := convention.spell "delegate" (result.spell symbol) params } := by
  simp only [fold_function, wording, List.map_map, Function.comp_def]
  rfl

theorem spell_delegate (function : TypeTree) (quals : Qualifiers) :
    (TypeTree.layer .delegate function quals).spell symbol =
      quals.wrap (function.fold (wording symbol)).delegate := rfl

end TypeTree

namespace Overlay

variable {graph : Graph} {overlay : Overlay graph}

theorem spellForm_eq_ok {inner : Speller} {symbol : SymbolId → String} {part : TypeId → TypeTree}
    {form : TypeForm} (quals : Qualifiers)
    (types : ∀ id ∈ form.parts, inner.type id = .ok ((part id).spell symbol))
    (symbols : ∀ id ∈ form.symbol?, inner.symbol id = .ok (symbol id))
    (functions : ∀ id ∈ form.parts, ∃ node part',
      overlay.type id = .ok node ∧ part id = node.tree part' ∧
        ∀ other ∈ node.form.parts, inner.type other = .ok ((part' other).spell symbol)) :
    ∃ text, overlay.spellForm inner form = .ok text ∧
      ((TypeNode.mk form quals).tree part).spell symbol = quals.wrap text := by
  cases form with
  | basic builtin => exact ⟨_, rfl, rfl⟩
  | pointer id | reference id | staticArray _ id | vector id | dynamicArray id =>
      have type := types id List.mem_cons_self
      exact ⟨_, by simp only [spellForm, type, bind, Except.bind]; rfl, rfl⟩
  | assocArray key value =>
      have key := types key (by simp [TypeForm.parts])
      have value := types value (by simp [TypeForm.parts])
      exact ⟨_, by simp only [spellForm, key, value, bind, Except.bind]; rfl, rfl⟩
  | record id | enumeration id _ | classRef id | typedef id =>
      exact ⟨_, symbols id rfl, rfl⟩
  | function signature =>
      refine ⟨_, Speller.signature_eq_ok types, ?_⟩
      rw [TypeNode.tree, TypeTree.spell, TypeTree.fold_wording_function, List.map_map]
      rfl
  | delegate id =>
      have type := types id List.mem_cons_self
      obtain ⟨⟨form, inside⟩, part', found, unfolded, parts⟩ := functions id List.mem_cons_self
      simp only [spellForm, found, bind, Except.bind]
      cases form with
      | function signature =>
          refine ⟨_, Speller.signature_eq_ok parts, ?_⟩
          rw [TypeNode.tree, TypeTree.spell_delegate, unfolded, TypeNode.tree,
            TypeTree.fold_wording_function, List.map_map]
          rfl
      | _ =>
          refine ⟨_, by simp only [type]; rfl, ?_⟩
          rw [TypeNode.tree, TypeTree.spell_delegate,
            TypeTree.fold_wording_plain (by rw [unfolded]; simp [TypeNode.tree])]
          rfl

/-- Whatever ranks below the depth of the speller is spelled in full, with the texts of the graph at
any fuel that suffices for its rank. -/
structure Spells (overlay : Overlay graph) (order : graph.Order) (depth fuel : Nat) : Prop where
  symbol : ∀ id, graph.Holds (.symbol id) → order.rank (.symbol id) < depth →
    order.rank (.symbol id) < fuel →
      (overlay.speller depth).symbol id = .ok (graph.textWithin fuel id)
  type : ∀ id tree, overlay.Unfolds id tree → rank order id < depth →
    min (rank order id) (graph.symbols.length + graph.types.length) ≤ fuel →
      (overlay.speller depth).type id = .ok (tree.spell (graph.textWithin fuel))

/-- One level deeper, a symbol needs one more step of fuel. -/
theorem Spells.symbol_succ {order : graph.Order} {depth fuel : Nat} {id : SymbolId}
    (spells : overlay.Spells order depth fuel) (formed : graph.WellFormed)
    (held : graph.Holds (.symbol id)) (deep : order.rank (.symbol id) < depth + 1)
    (enough : order.rank (.symbol id) < fuel + 1) :
    (overlay.speller (depth + 1)).symbol id = .ok (graph.textWithin (fuel + 1) id) := by
  obtain ⟨found, stored⟩ := Graph.holds_symbol_iff.mp held
  have mentions {part : Entity} (mentioned : part ∈ found.mentions) :
      graph.Mentions (.symbol id) part := by
    rwa [Graph.Mentions, Graph.mentions_symbol stored]
  have symbols : ∀ other, .symbol other ∈ found.mentions →
      (overlay.speller depth).symbol other = .ok (graph.textWithin fuel other) := by
    intro other mentioned
    have lower := order.descends _ _ (mentions mentioned)
    exact spells.symbol other (formed.closed _ _ (mentions mentioned)) (by omega) (by omega)
  have types : ∀ other, .type other ∈ found.mentions →
      (overlay.speller depth).type other =
        .ok ((graph.tree other).spell (graph.textWithin fuel)) := by
    intro other mentioned
    have held : other.index < graph.types.length := formed.closed _ _ (mentions mentioned)
    have lower := order.descends _ _ (mentions mentioned)
    have same : rank order other = order.rank (.type other) := if_pos held
    exact spells.type other _ (formed.unfolds_tree held overlay) (by omega) (by omega)
  simp only [speller, Graph.textWithin, stored]
  exact Graph.spellPath_eq_ok formed stored types symbols

/-- One level deeper, a type needs no more fuel. -/
theorem Spells.type_succ {order : graph.Order} {depth fuel : Nat} {id : TypeId} {tree : TypeTree}
    (spells : overlay.Spells order depth fuel) (sound : overlay.Sound) (formed : graph.WellFormed)
    (unfolds : overlay.Unfolds id tree) (deep : rank order id < depth + 1)
    (enough : min (rank order id) (graph.symbols.length + graph.types.length) ≤ fuel) :
    (overlay.speller (depth + 1)).type id = .ok (tree.spell (graph.textWithin fuel)) := by
  obtain ⟨⟨form, quals⟩, part, found, rfl, parts⟩ := unfolds.found
  have types : ∀ other tree, overlay.Unfolds other tree → rank order other < rank order id →
      (overlay.speller depth).type other = .ok (tree.spell (graph.textWithin fuel)) := by
    intro other tree unfolded lower
    exact spells.type other tree unfolded (by omega) (by omega)
  have lower : ∀ other ∈ form.parts, rank order other < rank order id :=
    fun other listed => sound.rank_part_lt formed order found listed
  obtain ⟨text, spelled, wrapped⟩ := spellForm_eq_ok quals
    (fun other listed => types other _ (parts other listed) (lower other listed))
    (fun other named => by
      have held := sound.symbol_held formed found named
      have below := sound.rank_symbol_lt formed order found named
      have bound := order.rank_lt _ held
      exact spells.symbol other held (by omega) (by omega))
    (fun other listed => by
      obtain ⟨node, part', stored, same, inside⟩ := (parts other listed).found
      refine ⟨node, part', stored, same, fun deeper within => ?_⟩
      have descends := sound.rank_part_lt formed order stored within
      exact types deeper _ (inside deeper within) (descends.trans (lower other listed)))
  simp only [speller, spellNode, found, spelled, wrapped, bind, Except.bind]
  rfl

theorem Sound.spells (sound : overlay.Sound) (formed : graph.WellFormed) (order : graph.Order)
    (depth fuel : Nat) : overlay.Spells order depth fuel := by
  induction depth generalizing fuel with
  | zero =>
      exact ⟨fun _ _ deep => absurd deep (Nat.not_lt_zero _),
        fun _ _ _ deep => absurd deep (Nat.not_lt_zero _)⟩
  | succ depth ih =>
      refine ⟨fun id held deep enough => ?_, fun id tree unfolds deep enough =>
        (ih fuel).type_succ sound formed unfolds deep enough⟩
      cases fuel with
      | zero => exact absurd enough (Nat.not_lt_zero _)
      | succ fuel => exact (ih fuel).symbol_succ formed held deep enough

variable {id : TypeId} {tree : TypeTree}

theorem Sound.spellType_eq_ok (sound : overlay.Sound) (formed : graph.WellFormed)
    (unfolds : overlay.Unfolds id tree) : overlay.spellType id = .ok (tree.spell graph.text) := by
  have deep := rank_lt_reach formed.order unfolds
  exact (sound.spells formed formed.order overlay.reach _).type id tree unfolds
    (Nat.lt_succ_of_lt deep) (Nat.min_le_right _ _)

theorem Sound.spellSymbol_eq_ok (sound : overlay.Sound) (formed : graph.WellFormed)
    {symbol : SymbolId} (held : graph.Holds (.symbol symbol)) :
    overlay.spellSymbol symbol = .ok (graph.text symbol) := by
  have deep := formed.order.rank_lt _ held
  exact (sound.spells formed formed.order overlay.reach _).symbol symbol held
    (by unfold reach; omega) deep

theorem Sound.spellArgument_eq_ok (sound : overlay.Sound) (formed : graph.WellFormed)
    {arg : TemplateArg} (held : ∀ entity ∈ arg.named?, graph.Holds entity) :
    overlay.spellArgument arg = .ok (graph.argumentText graph.text arg) :=
  Speller.argument_eq_ok
    (fun _ named => sound.spellType_eq_ok formed (formed.unfolds_tree (held _ named) overlay))
    (fun _ named => sound.spellSymbol_eq_ok formed (held _ named))

end Overlay

namespace Graph

variable {graph : Graph} {id : SymbolId}

/-- More fuel than needed changes no text. -/
theorem WellFormed.textWithin_eq_text (formed : graph.WellFormed) (held : graph.Holds (.symbol id))
    {fuel : Nat} (enough : graph.symbols.length + graph.types.length ≤ fuel) :
    graph.textWithin fuel id = graph.text id := by
  have sound := Overlay.sound_empty formed
  have deep := formed.order.rank_lt _ held
  have here := (sound.spells formed formed.order fuel fuel).symbol id held (by omega) (by omega)
  have there := (sound.spells formed formed.order fuel
    (graph.symbols.length + graph.types.length)).symbol id held (by omega) deep
  exact Except.ok.inj (here.symm.trans there)

theorem text_of_missing {fault : Fault} (missing : graph.symbol id = .error fault) :
    graph.text id = "" := by
  unfold text
  cases graph.symbols.length + graph.types.length with
  | zero => rfl
  | succ fuel => simp only [textWithin, missing]

end Graph

end LinkName
