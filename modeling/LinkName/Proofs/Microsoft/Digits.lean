import LinkName.Naming
import LinkName.Proofs.Microsoft.Discard
import LinkName.Proofs.Microsoft.Refusals

/-!
Where the tables hold only what the reader of a name can see. A signature that is rendered again adds
no types. It adds no levels either where each level has one text, as in the legacy dialect, which does
not record specializations, and in the modern one wherever template arguments leave nothing in the
tables.
-/
namespace LinkName

namespace Microsoft

/-- The items that the name of `id` is made of, at any depth. -/
inductive Item.Uses (graph : Graph) (id : SymbolId) : Item → Prop
  | declaration {part : Item} (listed : part ∈ Item.ofDeclaration graph id) : Uses graph id part
  | part {item part : Item} (uses : Uses graph id item) (listed : part ∈ Item.parts graph item) :
      Uses graph id part

/-- A template argument that leaves nothing in the tables of the modern dialect: a number, or a
builtin type other than `bool`. -/
def IsPlainArgument (graph : Graph) : TemplateArg → Prop
  | .value _ _ => True
  | .type id => ∃ basic quals, graph.type id = .ok { form := .basic basic, quals } ∧ basic ≠ .bool
  | .symbolAlias _ | .typeAlias _ | .pack _ => False

def PlainArguments (graph : Graph) (id : SymbolId) : Prop :=
  ∀ owner arg, Item.Uses graph id (.argument owner arg) → IsPlainArgument graph arg

namespace Script

variable {home : TypeTree → Script}

theorem additive_coherent : Additive (Coherent home) where
  write _ := trivial
  refuse _ := trivial
  append first second := ⟨first, second⟩

theorem additive_fixed : Additive Fixed where
  write _ := trivial
  refuse _ := trivial
  append first second := ⟨first, second⟩

theorem additive_fixedLevels : Additive FixedLevels where
  write _ := trivial
  refuse _ := trivial
  append first second := ⟨first, second⟩

theorem FixedLevels.recorded {place : Place} {tree : TypeTree} {body : Script}
    (fixed : body.FixedLevels) : (recorded place tree body).FixedLevels := by
  unfold Script.recorded
  split <;> exact fixed

theorem FixedLevels.recordedAfter {place : Place} {tree : TypeTree} {lead : List Token}
    {body : Script} (fixed : body.FixedLevels) :
    (recordedAfter place tree lead body).FixedLevels := by
  unfold Script.recordedAfter
  split
  · exact ⟨trivial, fixed⟩
  · exact fixed

end Script

namespace Plan

open Script (Coherent Fixed FixedLevels)

variable {graph : Graph} {machine : Target} {order : graph.Order}

/-- The script by which a type is recorded. -/
def home (order : graph.Order) (machine : Target) (tree : TypeTree) : Script :=
  settled order machine (.type tree {})

/-- Types are recorded in one place only. -/
def Regular : Item → Prop
  | .type _ place => (place.indirect || place.returned) = true ∨ place = {}
  | .scope _ | .argument _ _ => True

theorem regular_ofLevels {id : SymbolId} : ∀ part ∈ Item.ofLevels graph id, Regular part := by
  intro part listed
  unfold Item.ofLevels at listed
  split at listed
  · obtain ⟨name, -, inside⟩ := List.mem_flatMap.mp listed
    unfold Item.ofLevel at inside
    split at inside
    · rcases List.mem_append.mp inside with outer | inside
      · obtain ⟨parent, -, rfl⟩ := List.mem_map.mp outer
        trivial
      · unfold LinkName.Item.ofName at inside
        split at inside
        · obtain ⟨arg, rfl⟩ := LinkName.Item.eq_argument_of_mem inside
          trivial
        · cases inside
    · cases inside
  · cases listed

theorem regular_ofFunction {tree : TypeTree} : ∀ part ∈ Item.ofFunction tree, Regular part := by
  intro part listed
  cases tree with
  | function result params convention quals =>
      rcases List.mem_cons.mp listed with rfl | listed
      · exact .inl rfl
      · obtain ⟨param, -, rfl⟩ := List.mem_map.mp listed
        exact .inr rfl
  | _ => cases listed

theorem regular_ofSignature {id : SymbolId} : ∀ part ∈ Item.ofSignature graph id, Regular part := by
  intro part listed
  unfold Item.ofSignature at listed
  split at listed
  · exact regular_ofFunction part listed
  · rcases List.mem_cons.mp listed with rfl | listed
    · exact .inr rfl
    · obtain rfl := List.mem_singleton.mp listed
      exact .inr rfl
  · cases listed

theorem regular_parts (item : Item) : ∀ part ∈ Item.parts graph item, Regular part := by
  intro part listed
  cases item with
  | scope id => exact regular_ofLevels part listed
  | argument owner arg =>
      cases arg with
      | type id =>
          obtain rfl := List.mem_singleton.mp listed
          exact .inr rfl
      | symbolAlias target =>
          exact (List.mem_append.mp listed).elim (regular_ofLevels part) (regular_ofSignature part)
      | value | typeAlias | pack => cases listed
  | type tree place =>
      cases tree with
      | layer around inner quals =>
          rcases List.mem_append.mp listed with pointee | function
          · rcases List.mem_cons.mp pointee with rfl | pointee
            · exact .inl rfl
            · obtain rfl := List.mem_singleton.mp pointee
              exact .inl rfl
          · exact regular_ofFunction part function
      | named naming symbol quals => exact regular_ofLevels part listed
      | basic | assocArray | function => cases listed

/-! ## Types are recorded in one way -/

variable (formed : graph.WellFormed)
include formed

theorem type_coherent {tree : TypeTree} {place : Place} (regular : Regular (.type tree place))
    (held : ∀ symbol ∈ tree.symbols, graph.Holds (.symbol symbol))
    (parts : ∀ part ∈ Item.ofType graph tree place,
      (settled order machine part).Coherent (home order machine)) :
    (type graph machine (settled order machine) tree place).Coherent (home order machine) := by
  have shape : TypeShape graph machine (settled order machine) tree place
      (type graph machine (settled order machine) tree place) := type_shape tree place
  have names := namedLevels_additive machine Script.additive_coherent (fun _ _ body => body) parts
  have here : place = {} → home order machine tree =
      type graph machine (settled order machine) tree place := by
    rintro rfl
    exact settled_eq formed order held
  generalize type graph machine (settled order machine) tree place = script at shape here
  cases shape with
  | refuse refusal => trivial
  | write tokens => trivial
  | recorded body =>
      have inside := body Script.additive_coherent names parts
      rcases regular with elsewhere | rfl
      · simpa only [Script.recorded, elsewhere, if_true] using inside
      · exact ⟨here rfl, inside⟩
  | recordedAfter lead body =>
      have inside := body Script.additive_coherent names parts
      rcases regular with elsewhere | rfl
      · simpa only [Script.recordedAfter, elsewhere, if_true] using ⟨trivial, inside⟩
      · exact ⟨here rfl, inside⟩

theorem settled_coherent {item : Item} (regular : Regular item) (held : item.Held graph) :
    (settled order machine item).Coherent (home order machine) := by
  refine LinkName.Item.induction (Item.descends formed) order (motive := fun item =>
    Regular item → (settled order machine item).Coherent (home order machine)) ?_ held regular
  intro item held below regular
  have parts : ∀ part ∈ Item.parts graph item,
      (settled order machine part).Coherent (home order machine) :=
    fun part listed => below part listed (regular_parts item part listed)
  rw [settled_eq formed order held]
  cases item with
  | scope id => exact levelNames_additive Script.additive_coherent (fun _ _ body => body) true parts
  | argument owner arg =>
      refine argument_additive Script.additive_coherent ?_ parts
      rintro target rfl
      exact qualifiedName_additive Script.additive_coherent (fun _ _ body => body)
        fun part listed => parts part (List.mem_append_left _ listed)
  | type tree place => exact type_coherent formed regular held parts

theorem declaration_coherent {id : SymbolId} (held : graph.Holds (.symbol id)) :
    (declaration graph machine (settled order machine) id).Coherent (home order machine) := by
  have parts : ∀ part ∈ Item.ofDeclaration graph id,
      (settled order machine part).Coherent (home order machine) := by
    intro part listed
    have regular : Regular part :=
      (List.mem_append.mp listed).elim (regular_ofLevels part) (regular_ofSignature part)
    exact settled_coherent formed regular (Item.below_ofDeclaration formed order held part listed).1
  have name : (qualifiedName graph machine (settled order machine) id).Coherent (home order machine) :=
    qualifiedName_additive Script.additive_coherent (fun _ _ body => body) fun part listed =>
      parts part (List.mem_append_left _ listed)
  exact declaration_additive Script.additive_coherent name fun part listed =>
    parts part (List.mem_append_right _ listed)

/-! ## Levels that have one text -/

theorem argument_fixed (modern : machine.isLegacy = false) {owner : SymbolId} {arg : TemplateArg}
    (plain : IsPlainArgument graph arg) (depth : Nat) :
    (within graph machine depth (.argument owner arg)).Fixed := by
  cases depth with
  | zero => trivial
  | succ depth =>
      cases arg with
      | value id number =>
          simp only [within, item, argument]
          split <;> trivial
      | type id =>
          obtain ⟨basic, quals, found, other⟩ := plain
          show (within graph machine depth (.type (graph.tree id) {})).Fixed
          rw [formed.tree_eq found]
          cases depth with
          | zero => trivial
          | succ depth =>
              simp only [within, item, type, TypeNode.tree, basicType, modern,
                beq_eq_false_iff_ne.mpr other, Bool.or_self, Bool.and_false, Bool.false_eq_true,
                if_false]
              split
              · trivial
              · split <;> trivial
      | symbolAlias | typeAlias | pack => exact plain.elim

variable {id : SymbolId} (fixed : machine.isLegacy = true ∨ PlainArguments graph id)
include fixed

theorem levelNames_fixedLevels {symbol : SymbolId} (spelledOut : Bool)
    (uses : ∀ part ∈ Item.ofLevels graph symbol, Item.Uses graph id part)
    (parts : ∀ part ∈ Item.ofLevels graph symbol, (settled order machine part).FixedLevels) :
    (levelNames graph machine (settled order machine) spelledOut symbol).FixedLevels := by
  refine levelNames_layered Script.additive_fixedLevels Script.additive_fixed
    (fun _ _ body => body) spelledOut (fun _ => parts) fun modern owner arg listed => ?_
  have plain : PlainArguments graph id := fixed.resolve_left (by simp [modern])
  exact argument_fixed formed modern (plain owner arg (uses _ listed)) _

theorem settled_fixedLevels {item : Item} (uses : Item.Uses graph id item)
    (held : item.Held graph) : (settled order machine item).FixedLevels := by
  refine LinkName.Item.induction (Item.descends formed) order (motive := fun item =>
    Item.Uses graph id item → (settled order machine item).FixedLevels) ?_ held uses
  intro item held below uses
  have uses : ∀ part ∈ Item.parts graph item, Item.Uses graph id part := fun _ => .part uses
  have parts : ∀ part ∈ Item.parts graph item, (settled order machine part).FixedLevels :=
    fun part listed => below part listed (uses part listed)
  rw [settled_eq formed order held]
  cases item with
  | scope symbol => exact levelNames_fixedLevels formed fixed true uses parts
  | argument owner arg =>
      refine argument_additive Script.additive_fixedLevels ?_ parts
      rintro target rfl
      have names := levelNames_fixedLevels formed fixed false
        (fun part listed => uses part (List.mem_append_left _ listed))
        fun part listed => parts part (List.mem_append_left _ listed)
      exact ⟨names, trivial⟩
  | type tree place =>
      have names : ∀ naming symbol quals, tree = .named naming symbol quals →
          (qualifiedName graph machine (settled order machine) symbol).FixedLevels := by
        rintro naming symbol quals rfl
        exact ⟨levelNames_fixedLevels formed fixed false uses parts,
          trivial⟩
      have shape : TypeShape graph machine (settled order machine) tree place
          (type graph machine (settled order machine) tree place) := type_shape tree place
      show (type graph machine (settled order machine) tree place).FixedLevels
      generalize type graph machine (settled order machine) tree place = script at shape
      cases shape with
      | refuse refusal => trivial
      | write tokens => trivial
      | recorded body => exact (body Script.additive_fixedLevels names parts).recorded
      | recordedAfter lead body => exact (body Script.additive_fixedLevels names parts).recordedAfter

theorem declaration_fixedLevels (held : graph.Holds (.symbol id)) :
    (declaration graph machine (settled order machine) id).FixedLevels := by
  have uses : ∀ part ∈ Item.ofDeclaration graph id, Item.Uses graph id part :=
    fun _ => .declaration
  have parts : ∀ part ∈ Item.ofDeclaration graph id, (settled order machine part).FixedLevels :=
    fun part listed => settled_fixedLevels formed fixed (uses part listed)
      (Item.below_ofDeclaration formed order held part listed).1
  have names := levelNames_fixedLevels formed fixed false
    (fun part listed => uses part (List.mem_append_left _ listed))
    fun part listed => parts part (List.mem_append_left _ listed)
  exact declaration_additive Script.additive_fixedLevels ⟨names, trivial⟩ fun part listed =>
    parts part (List.mem_append_right _ listed)

end Plan

/-! ## Whole names -/

/-- The script of the name of `id` for a target. -/
def nameScript (graph : Graph) (target : Target) (id : SymbolId) : Script :=
  (Plan.within graph target (Encoder.depthBound graph)).declaration graph
    target id

variable {graph : Graph} {target : Target} {id : SymbolId} {text : String}

theorem nameScript_eq (formed : graph.WellFormed) (order : graph.Order)
    (held : graph.Holds (.symbol id)) :
    nameScript graph target id =
      Plan.declaration graph target (Plan.settled order target) id :=
  Plan.declaration_settled formed order held (Encoder.rank_le_depthBound order held)

theorem run_of_nameFor (named : nameFor graph target id = .ok text) :
    ∃ tokens session,
      (encode target id : Encoder graph (List Token)).run
        { tables := Tables.bounded 10 } = .ok tokens session ∧
      text = String.ofList (Token.write tokens) := by
  unfold nameFor name Encoder.outcome at named
  cases ran : (encode target id : Encoder graph (List Token)).run
      { tables := Tables.bounded 10 } with
  | error refusal session =>
      rw [ran] at named
      cases named
  | ok tokens session =>
      rw [ran] at named
      cases named
      exact ⟨tokens, session, rfl, rfl⟩

/-- The encoder follows the script of a name. Where a pointer to a function is rendered and thrown away
for a digit, the table of types is what it was before; and so are both tables wherever the levels of
what is thrown away have one text, which is everywhere in the legacy dialect, and in the modern one if
the arguments in the name are plain. If nothing that is thrown away leaves anything behind, the digits
are right for the reader of the name, and everything in the tables stands in the name. -/
theorem nameFor_digits (built : graph.Built) (named : nameFor graph target id = .ok text) :
    (∀ base : Overlay graph,
      Follows base (encode target id) (nameScript graph target id)) ∧
    (∀ what thrown before after,
      Script.Discards what thrown (nameScript graph target id) (Record.bounded 10) before after →
        (what ≠ none → after.types = before.types) ∧
          (Script.Unvarying what thrown → after = before)) ∧
    (target.isLegacy = true ∨ PlainArguments graph id →
      (nameScript graph target id).Tidy (Record.bounded 10)) ∧
    ∃ tokens session record,
      (encode target id : Encoder graph (List Token)).run
        { tables := Tables.bounded 10 } = .ok tokens session ∧
      (nameScript graph target id).run (Record.bounded 10) = .ok (tokens, record) ∧
      (reading graph).relates session.overlay session.tables record ∧
      text = String.ofList (Token.write tokens) ∧
      ((nameScript graph target id).Tidy (Record.bounded 10) →
        (nameScript graph target id).seen (Record.bounded 10) = .ok (tokens, record) ∧
        (∀ key ∈ record.names.entries, key ++ ['@'] <:+: Token.write tokens) ∧
        ∀ tree ∈ record.types.entries, ∃ depth spelling, spelling <:+: Token.write tokens ∧
          (Plan.within graph target depth (.type tree {})).Spells tree spelling) := by
  have formed := built.wellFormed
  have order := formed.order
  obtain ⟨tokens, session, encoded, same⟩ := run_of_nameFor named
  obtain ⟨record, ran, related⟩ := run_of_encode formed encoded
  have held := holds_of_encode encoded
  have settled : nameScript graph target id = Plan.declaration graph target
      (Plan.settled order target) id := nameScript_eq formed order held
  have coherent : (nameScript graph target id).Coherent (Plan.home order target) :=
    settled ▸ Plan.declaration_coherent formed held
  have clean {what thrown before after} (discards : Script.Discards what thrown
      (nameScript graph target id) (Record.bounded 10) before after) :=
    discards.clean coherent fun _ listed => absurd listed List.not_mem_nil
  refine ⟨follows_encode formed target held, fun _ _ _ _ => clean, ?_, ?_⟩
  · intro fixed what thrown before after discards
    have levels : (nameScript graph target id).FixedLevels :=
      settled ▸ Plan.declaration_fixedLevels formed fixed held
    exact (clean discards).2 (discards.unvarying levels)
  · refine ⟨tokens, session, record, encoded, ran, related, same, fun tidy => ?_⟩
    have shown := Script.shows_of_run _ coherent tidy ran
    refine ⟨Script.seen_of_run _ tidy ran,
      fun key listed => (shown.names key listed).resolve_left List.not_mem_nil, ?_⟩
    intro tree listed
    obtain ⟨spelling, spells, written⟩ := (shown.types tree listed).resolve_left List.not_mem_nil
    exact ⟨_, spelling, written, spells⟩

/-- Where the reader counts something else than what is written, something has been left behind. -/
theorem not_tidy_of_seen (formed : graph.WellFormed) (named : nameFor graph target id = .ok text)
    {other : String} (seen : (fun reached => String.ofList (Token.write reached.1)) <$>
      (nameScript graph target id).seen (Record.bounded 10) = .ok other) (differ : text ≠ other) :
    ¬ (nameScript graph target id).Tidy (Record.bounded 10) := by
  intro tidy
  obtain ⟨tokens, session, encoded, same⟩ := run_of_nameFor named
  obtain ⟨record, ran, -⟩ := run_of_encode formed encoded
  rw [Script.seen_of_run (nameScript graph target id) tidy ran] at seen
  exact differ (same.trans (Except.ok.inj seen))

/-- `void poll(Queue<Item> (*)(), Queue<Item> (*)(), Clock, Clock *)` and
`void vary(Cell<bool>, Cell<const bool>, Clock *, Clock *)`. -/
def polls : Graph where
  symbols :=
    [{ ident := "app", sort := .moduleScope },
      { ident := "Item", parent := some ⟨0⟩, sort := .record .struct },
      { ident := "Queue", parent := some ⟨0⟩, sort := .template none },
      { ident := "Queue", parent := some ⟨0⟩, sort := .specialization ⟨2⟩ [.type ⟨1⟩] },
      { ident := "Queue", parent := some ⟨3⟩, sort := .record .struct },
      { ident := "Clock", parent := some ⟨0⟩, sort := .record .struct },
      { ident := "poll", parent := some ⟨0⟩, sort := .function { type := ⟨7⟩ } },
      { ident := "Cell", parent := some ⟨0⟩, sort := .template none },
      { ident := "Cell", parent := some ⟨0⟩, sort := .specialization ⟨7⟩ [.type ⟨8⟩] },
      { ident := "Cell", parent := some ⟨0⟩, sort := .specialization ⟨7⟩ [.type ⟨9⟩] },
      { ident := "Cell", parent := some ⟨8⟩, sort := .record .struct },
      { ident := "Cell", parent := some ⟨9⟩, sort := .record .struct },
      { ident := "vary", parent := some ⟨0⟩, sort := .function { type := ⟨12⟩ } }]
  types :=
    [{ form := .basic .void }, { form := .record ⟨1⟩ }, { form := .record ⟨4⟩ },
      { form := .record ⟨5⟩ }, { form := .function { result := ⟨2⟩ } }, { form := .pointer ⟨4⟩ },
      { form := .pointer ⟨3⟩ },
      { form := .function
          { result := ⟨0⟩
            params := [{ type := ⟨5⟩ }, { type := ⟨5⟩ }, { type := ⟨3⟩ }, { type := ⟨6⟩ }] } },
      { form := .basic .bool }, { form := .basic .bool, quals := { isConst := true } },
      { form := .record ⟨10⟩ }, { form := .record ⟨11⟩ },
      { form := .function
          { result := ⟨0⟩
            params := [{ type := ⟨10⟩ }, { type := ⟨11⟩ }, { type := ⟨6⟩ }, { type := ⟨6⟩ }] } }]

theorem polls_built : polls.Built :=
  Graph.built_of_takeAll?
    [.symbol { ident := "app", sort := .moduleScope },
      .symbol { ident := "Item", parent := some ⟨0⟩, sort := .record .struct },
      .symbol { ident := "Queue", parent := some ⟨0⟩, sort := .template none },
      .type { form := .basic .void }, .type { form := .record ⟨1⟩ },
      .specialization ⟨2⟩ [.type ⟨1⟩],
      .symbol { ident := "Queue", parent := some ⟨3⟩, sort := .record .struct },
      .type { form := .record ⟨4⟩ },
      .symbol { ident := "Clock", parent := some ⟨0⟩, sort := .record .struct },
      .type { form := .record ⟨5⟩ }, .type { form := .function { result := ⟨2⟩ } },
      .type { form := .pointer ⟨4⟩ }, .type { form := .pointer ⟨3⟩ },
      .type
        { form := .function
            { result := ⟨0⟩
              params := [{ type := ⟨5⟩ }, { type := ⟨5⟩ }, { type := ⟨3⟩ }, { type := ⟨6⟩ }] } },
      .symbol { ident := "poll", parent := some ⟨0⟩, sort := .function { type := ⟨7⟩ } },
      .symbol { ident := "Cell", parent := some ⟨0⟩, sort := .template none },
      .type { form := .basic .bool }, .type { form := .basic .bool, quals := { isConst := true } },
      .specialization ⟨7⟩ [.type ⟨8⟩], .specialization ⟨7⟩ [.type ⟨9⟩],
      .symbol { ident := "Cell", parent := some ⟨8⟩, sort := .record .struct },
      .symbol { ident := "Cell", parent := some ⟨9⟩, sort := .record .struct },
      .type { form := .record ⟨10⟩ }, .type { form := .record ⟨11⟩ },
      .type
        { form := .function
            { result := ⟨0⟩
              params := [{ type := ⟨10⟩ }, { type := ⟨11⟩ }, { type := ⟨6⟩ }, { type := ⟨6⟩ }] } },
      .symbol { ident := "vary", parent := some ⟨0⟩, sort := .function { type := ⟨12⟩ } }] rfl

/-- In the legacy dialect the second pointer leaves nothing behind, and `Clock` is referred back to by
the number that the reader of the name gives it. -/
theorem nameFor_digits_legacy :
    let target : Target := { Target.microsoft64 with abi := .microsoft .legacy, pointerBits := 32 }
    nameFor polls target ⟨6⟩ = .ok "?poll@@YAXP6A?AU?$Queue@UItem@@@@XZ1UClock@@PAU2@@Z" ∧
      (nameScript polls target ⟨6⟩).Tidy (Record.bounded 10) ∧
      (fun reached => String.ofList (Token.write reached.1)) <$>
          (nameScript polls target ⟨6⟩).seen (Record.bounded 10) =
        .ok "?poll@@YAXP6A?AU?$Queue@UItem@@@@XZ1UClock@@PAU2@@Z" := by
  intro target
  have named : nameFor polls target ⟨6⟩ =
      .ok "?poll@@YAXP6A?AU?$Queue@UItem@@@@XZ1UClock@@PAU2@@Z" := by decide +kernel
  obtain ⟨-, -, legacy, tokens, session, record, -, -, -, same, reads⟩ :=
    nameFor_digits polls_built named
  have tidy := legacy (.inl rfl)
  refine ⟨named, tidy, ?_⟩
  rw [(reads tidy).1, same]
  rfl

/-- In the modern one the text that is thrown away for the second pointer of `poll` leaves a level
behind, and that of the second `Cell` of `vary` leaves a type; what comes later is referred back to by
a number that is one more than the reader's. -/
theorem not_tidy_polls :
    nameFor polls Target.microsoft64 ⟨6⟩ =
        .ok "?poll@@YAXP6A?AU?$Queue@UItem@@@@XZ1UClock@@PEAU4@@Z" ∧
      (fun reached => String.ofList (Token.write reached.1)) <$>
          (nameScript polls Target.microsoft64 ⟨6⟩).seen (Record.bounded 10) =
        .ok "?poll@@YAXP6A?AU?$Queue@UItem@@@@XZ1UClock@@PEAU3@@Z" ∧
      ¬ (nameScript polls Target.microsoft64 ⟨6⟩).Tidy (Record.bounded 10) ∧
    nameFor polls Target.microsoft64 ⟨12⟩ = .ok "?vary@@YAXU?$Cell@_N@@U1@PEAUClock@@4@Z" ∧
      (fun reached => String.ofList (Token.write reached.1)) <$>
          (nameScript polls Target.microsoft64 ⟨12⟩).seen (Record.bounded 10) =
        .ok "?vary@@YAXU?$Cell@_N@@U1@PEAUClock@@3@Z" ∧
      ¬ (nameScript polls Target.microsoft64 ⟨12⟩).Tidy (Record.bounded 10) := by
  have formed := polls_built.wellFormed
  have named : nameFor polls Target.microsoft64 ⟨6⟩ =
      .ok "?poll@@YAXP6A?AU?$Queue@UItem@@@@XZ1UClock@@PEAU4@@Z" := by decide +kernel
  have seen : (fun reached => String.ofList (Token.write reached.1)) <$>
      (nameScript polls Target.microsoft64 ⟨6⟩).seen (Record.bounded 10) =
        .ok "?poll@@YAXP6A?AU?$Queue@UItem@@@@XZ1UClock@@PEAU3@@Z" := by decide +kernel
  have named' : nameFor polls Target.microsoft64 ⟨12⟩ =
      .ok "?vary@@YAXU?$Cell@_N@@U1@PEAUClock@@4@Z" := by decide +kernel
  have seen' : (fun reached => String.ofList (Token.write reached.1)) <$>
      (nameScript polls Target.microsoft64 ⟨12⟩).seen (Record.bounded 10) =
        .ok "?vary@@YAXU?$Cell@_N@@U1@PEAUClock@@3@Z" := by decide +kernel
  exact ⟨named, seen, not_tidy_of_seen formed named seen (by decide +kernel), named', seen',
    not_tidy_of_seen formed named' seen' (by decide +kernel)⟩

end Microsoft

end LinkName
