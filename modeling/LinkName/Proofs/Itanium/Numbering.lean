import LinkName.Naming
import LinkName.Proofs.Itanium.Placement
import LinkName.Proofs.Itanium.Slots

/-!
The order of slots. The scopes around a symbol have smaller slots; only where the symbol is recorded
as a scope itself do they take the slots behind it, from the inside out, and only then can the
template of its level come after it.
-/
namespace LinkName

namespace Graph

/-- `outer` is the scope around the level of `id`. A specialization and its members form one level;
its template is to be one that is named outright. -/
def EnclosedBy (graph : Graph) (id outer : SymbolId) : Prop :=
  graph.NamedOutright id ∧ ∃ level, graph.level id = .ok level ∧ level.scope = some outer ∧
    ∀ template, level.template = some template → graph.NamedOutright template

variable {graph : Graph} {id outer : SymbolId}

theorem EnclosedBy.rank_lt (enclosed : graph.EnclosedBy id outer) (order : graph.Order) :
    order.rank (.symbol outer) < order.rank (.symbol id) := by
  obtain ⟨-, level, found, scope, -⟩ := enclosed
  have isLevel := isLevel_of_level found
  exact (order.descends _ _ (isLevel.mentions_scope scope)).trans_le (isLevel.rank_name_le order)

theorem namedOutright_of_unspecialized
    (unspecialized : ∀ symbol ∈ graph.symbols, symbol.template? ≠ some id) :
    graph.NamedOutright id := by
  intro other symbol level named stored special
  have listed : symbol ∈ graph.symbols := List.mem_of_getElem? (symbol_eq_ok_iff.mp stored)
  exact absurd special (unspecialized symbol listed)

end Graph

namespace Itanium

/-! ## Chains of scopes -/

section

variable {graph : Graph} {slots : List (Option SymbolId)} {slot : Nat} {id outer : SymbolId}

/-- The scope around a symbol has a smaller slot or, where the symbol is a scope, the next one. -/
theorem Places.enclosed (places : Places graph [] slots) (formed : graph.WellFormed)
    (copies : graph.CopiesTemplates) (enclosed : graph.EnclosedBy id outer)
    (stands : slots[slot]? = some (some id)) :
    some outer ∈ slots.take slot ∨ graph.IsScope id ∧ slots[slot + 1]? = some (some outer) := by
  have lower := enclosed.rank_lt formed.order
  obtain ⟨outright, level, found, scope, general⟩ := enclosed
  have placed := places.placed slot id (Nat.zero_le _) stands outright
  rcases placed.scope level outer found scope with before | next | ⟨template, spelled, known⟩
  · exact .inl before
  · exact .inr next
  -- The template lies in the same scope, which it has before or right behind itself.
  obtain ⟨earlier, sooner, stood⟩ := mem_take_iff.mp known
  have isLevel := Graph.isLevel_of_level found
  obtain ⟨named, stored, special⟩ := isLevel.template?_eq spelled
  have outright' := general template spelled
  obtain ⟨level', found'⟩ :=
    formed.level_eq_ok (formed.closed _ _ (Graph.mentions_template stored special))
  obtain ⟨-, plain, around⟩ := outright'.level_eq copies stored special found'
  have same : level'.scope = some outer :=
    (Except.ok.inj (around.symm.trans isLevel.scope)).trans scope
  have standing := places.placed earlier template (Nat.zero_le _) stood outright'
  rcases standing.scope level' outer found' same with before | ⟨-, next⟩ | ⟨_, specialized, -⟩
  · obtain ⟨index, inside, there⟩ := mem_take_iff.mp before
    exact .inl (mem_take_iff.mpr ⟨index, inside.trans sooner, there⟩)
  · refine .inl (mem_take_iff.mpr ⟨earlier + 1, Nat.lt_of_le_of_ne sooner ?_, next⟩)
    rintro rfl
    rw [next, Option.some.injEq, Option.some.injEq] at stands
    exact absurd lower (stands ▸ Nat.lt_irrefl _)
  · simp [plain] at specialized

theorem rank_chain_lt (order : graph.Order) {chain : Nat → SymbolId} {length : Nat}
    (enclosed : ∀ step < length, graph.EnclosedBy (chain step) (chain (step + 1))) :
    ∀ far ≤ length, ∀ near < far,
      order.rank (.symbol (chain far)) < order.rank (.symbol (chain near)) := by
  intro far
  induction far with
  | zero => exact fun _ near below => absurd below (Nat.not_lt_zero near)
  | succ far ih =>
      intro bound near below
      have lower := (enclosed far bound).rank_lt order
      rcases Nat.lt_succ_iff_lt_or_eq.mp below with nearer | rfl
      · exact lower.trans (ih (Nat.le_of_lt bound) near nearer)
      · exact lower

/-- Going outwards from a symbol, its scopes take the slots behind it until one has a smaller slot;
from there on all do. -/
theorem Places.chain (places : Places graph [] slots) (formed : graph.WellFormed)
    (copies : graph.CopiesTemplates) {chain : Nat → SymbolId} {length : Nat}
    (enclosed : ∀ step < length, graph.EnclosedBy (chain step) (chain (step + 1)))
    (stands : slots[slot]? = some (some (chain 0))) :
    (∃ earlier < slot, slots[earlier]? = some (some (chain length))) ∨
      (∀ step < length, graph.IsScope (chain step)) ∧
        ∀ step ≤ length, slots[slot + step]? = some (some (chain step)) := by
  induction length with
  | zero =>
      refine .inr ⟨by simp, fun step bound => ?_⟩
      obtain rfl := Nat.le_zero.mp bound
      exact stands
  | succ length ih =>
      have lower := rank_chain_lt formed.order enclosed (length + 1) le_rfl
      -- A slot is not shared with a scope further in.
      have apart {index near : Nat} (below : near ≤ length)
          (outside : slots[index]? = some (some (chain (length + 1))))
          (inside : slots[index]? = some (some (chain near))) : False := by
        have less := lower near (Nat.lt_succ_of_le below)
        rw [outside, Option.some.injEq, Option.some.injEq] at inside
        exact absurd less (inside ▸ Nat.lt_irrefl _)
      have next {index : Nat} (here : slots[index]? = some (some (chain length))) :=
        places.enclosed formed copies (enclosed length (Nat.lt_succ_self _)) here
      rcases ih fun step inside => enclosed step (Nat.lt_succ_of_lt inside) with
        ⟨earlier, sooner, stood⟩ | ⟨scopes, run⟩
      · rcases next stood with before | ⟨-, behind⟩
        · obtain ⟨index, inside, found⟩ := mem_take_iff.mp before
          exact .inl ⟨index, inside.trans sooner, found⟩
        · refine .inl ⟨earlier + 1, Nat.lt_of_le_of_ne sooner ?_, behind⟩
          rintro rfl
          exact apart (Nat.zero_le _) behind stands
      · rcases next (run length le_rfl) with before | ⟨isScope, behind⟩
        · obtain ⟨index, inside, found⟩ := mem_take_iff.mp before
          refine .inl ⟨index, Nat.lt_of_not_le fun beyond => ?_, found⟩
          obtain ⟨step, rfl⟩ := Nat.exists_eq_add_of_le beyond
          have near : step ≤ length := by omega
          exact apart near found (run step near)
        · refine .inr ⟨?_, ?_⟩
          · intro step bound
            rcases Nat.lt_succ_iff_lt_or_eq.mp bound with nearer | rfl
            · exact scopes step nearer
            · exact isScope
          · intro step bound
            rcases Nat.le_succ_iff.mp bound with nearer | rfl
            · exact run step nearer
            · exact behind

end

/-! ## The table of a name -/

def Component.symbol? : Component → Option SymbolId
  | .symbol id => some id
  | _ => none

section

variable {graph : Graph} {components : List Component} {slot other : Nat} {id : SymbolId}

theorem getElem?_symbol_iff :
    (components.map Component.symbol?)[slot]? = some (some id) ↔
      components[slot]? = some (.symbol id) := by
  rw [List.getElem?_map, Option.map_eq_some_iff]
  constructor
  · rintro ⟨component, stands, same⟩
    cases component <;> simp_all [Component.symbol?]
  · exact fun stands => ⟨_, stands, rfl⟩

theorem map_symbol?_of_reads {overlay : Overlay graph} {keys : List Key}
    (reads : List.Forall₂ (Reads overlay) components keys) :
    components.map Component.symbol? = keys.map Key.symbol? := by
  induction reads with
  | nil => rfl
  | cons head _ ih =>
      rw [List.map_cons, List.map_cons, ih]
      cases head <;> rfl

/-- A component that can be referred back to has one slot. -/
theorem Orderly.slot_unique {session : Session graph (Table Component)} (orderly : Orderly session)
    (stands : session.tables.entries[slot]? = some (.symbol id))
    (also : session.tables.entries[other]? = some (.symbol id)) : slot = other := by
  have apart {near far : Nat} (less : near < far)
      (first : session.tables.entries[near]? = some (.symbol id))
      (second : session.tables.entries[far]? = some (.symbol id)) : False := by
    have once := orderly.once
    rw [← List.take_append_drop far session.tables.entries, List.filter_append] at once
    refine List.disjoint_of_nodup_append once (a := .symbol id) ?_ ?_
    · exact List.mem_filter.mpr ⟨mem_take_iff.mpr ⟨near, less, first⟩, rfl⟩
    · refine List.mem_filter.mpr ⟨List.mem_of_getElem? (i := 0) ?_, rfl⟩
      rwa [List.getElem?_drop, Nat.add_zero]
  exact Nat.le_antisymm (Nat.le_of_not_lt fun less => apart less also stands)
    (Nat.le_of_not_lt fun less => apart less stands also)

/-- The symbols in the table of a name are placed. -/
theorem places_of_encode (built : graph.Built) {machine : Target} {tokens : List Token}
    {session : Session graph (Table Component)}
    (ran : (encode machine id : Encoder graph (List Token)).run { tables := Table.unbounded } =
      .ok tokens session) :
    Places graph [] (session.tables.entries.map Component.symbol?) := by
  have formed := built.wellFormed
  obtain ⟨table, written, -, reads⟩ := run_of_encode formed ran
  have places := Plan.places_within formed.order built.sound.copies machine
    (Encoder.depthBound graph)
  obtain ⟨-, placed⟩ := Plan.declaration_places machine places id _ table tokens rfl written
  rw [map_symbol?_of_reads reads]
  exact placed

end

/-- In the table of a name, the scopes around a symbol have smaller slots, or the symbol is a scope
itself and they take the slots behind it, from the inside out. Where a level is a specialization,
its template has a smaller slot, or the symbol is a scope and the template comes next or behind the
scope around it. All of them do have slots. -/
theorem slots_follow_scopes {graph : Graph} (built : graph.Built) (target : Target) (id : SymbolId)
    (tokens : List Token) (session : Session graph (Table Component))
    (ran : (encode target id : Encoder graph (List Token)).run
      { tables := Table.unbounded } = .ok tokens session) :
    (∀ (chain : Nat → SymbolId) (length inner : Nat), 0 < length →
      (∀ step < length, graph.EnclosedBy (chain step) (chain (step + 1))) →
      session.tables.entries[inner]? = some (.symbol (chain 0)) →
      ∃ outer, session.tables.entries[outer]? = some (.symbol (chain length)) ∧
        (∀ slot, session.tables.entries[slot]? = some (.symbol (chain length)) → slot = outer) ∧
        (outer < inner ∨ graph.IsScope (chain 0) ∧
          ∀ step ≤ length, session.tables.entries[inner + step]? = some (.symbol (chain step)))) ∧
    (∀ (named : SymbolId) (level : Level) (symbol : Symbol) (template : SymbolId) (slot : Nat),
      graph.NamedOutright named → graph.level named = .ok level →
      graph.symbol level.name = .ok symbol → symbol.template? = some template →
      session.tables.entries[slot]? = some (.symbol named) →
      ∃ general, session.tables.entries[general]? = some (.symbol template) ∧
        (∀ slot, session.tables.entries[slot]? = some (.symbol template) → slot = general) ∧
        (general < slot ∨ graph.IsScope named ∧ slot < general ∧ (general = slot + 1 ∨
          ∃ outer, level.scope = some outer ∧
            session.tables.entries[slot + 1]? = some (.symbol outer)))) := by
  have formed := built.wellFormed
  have places := places_of_encode built ran
  have orderly : Orderly session := by
    have kept := (keeps_encode formed target id {} _ le_rfl (orderly_start formed)).1
    rwa [ran] at kept
  refine ⟨?scopes, ?templates⟩
  case scopes =>
    intro chain length inner positive enclosed stands
    rcases places.chain formed built.sound.copies enclosed (getElem?_symbol_iff.mpr stands) with
      ⟨outer, sooner, found⟩ | ⟨scopes, run⟩
    · have found := getElem?_symbol_iff.mp found
      exact ⟨outer, found, fun _ also => orderly.slot_unique also found, .inl sooner⟩
    · have run := fun step bound => getElem?_symbol_iff.mp (run step bound)
      have last := run length le_rfl
      exact ⟨inner + length, last, fun _ also => orderly.slot_unique also last,
        .inr ⟨scopes 0 positive, run⟩⟩
  case templates =>
    intro named level symbol template slot outright found stored special stands
    have placed :=
      places.placed slot named (Nat.zero_le _) (getElem?_symbol_iff.mpr stands) outright
    rcases placed.template level symbol template found stored special with
      before | ⟨isScope, later, beyond, there, next⟩
    · obtain ⟨general, sooner, there⟩ := mem_take_iff.mp before
      have there := getElem?_symbol_iff.mp there
      exact ⟨general, there, fun _ also => orderly.slot_unique also there, .inl sooner⟩
    · have there := getElem?_symbol_iff.mp there
      refine ⟨later, there, fun _ also => orderly.slot_unique also there,
        .inr ⟨isScope, beyond, next.imp_right ?_⟩⟩
      rintro ⟨outer, scope, stands⟩
      exact ⟨outer, scope, getElem?_symbol_iff.mp stands⟩

/-- `outer::inner` with a `Point` and `void place(Point)` in it, and a template `Box` whose
specialization for `int` has a `get` that takes the one for `char`. The parameters of `pair` are the
member of a specialization and the specialization itself. -/
def nests : Graph where
  symbols :=
    [{ ident := "app", sort := .moduleScope },
      { ident := "outer", parent := some ⟨0⟩, sort := .namespaceScope },
      { ident := "inner", parent := some ⟨1⟩, sort := .namespaceScope },
      { ident := "Point", parent := some ⟨2⟩, sort := .record .struct },
      { ident := "place", parent := some ⟨2⟩, sort := .function { type := ⟨2⟩ } },
      { ident := "Box", parent := some ⟨0⟩, sort := .template none },
      { ident := "Box", parent := some ⟨0⟩, sort := .specialization ⟨5⟩ [.type ⟨3⟩] },
      { ident := "Box", parent := some ⟨6⟩, sort := .record .struct },
      { ident := "Box", parent := some ⟨0⟩, sort := .specialization ⟨5⟩ [.type ⟨4⟩] },
      { ident := "Box", parent := some ⟨8⟩, sort := .record .struct },
      { ident := "get", parent := some ⟨7⟩, sort := .function { type := ⟨6⟩ } },
      { ident := "pair", parent := some ⟨0⟩, sort := .function { type := ⟨9⟩ } }]
  types :=
    [{ form := .basic .void }, { form := .record ⟨3⟩ },
      { form := .function { result := ⟨0⟩, params := [{ type := ⟨1⟩ }] } },
      { form := .basic .int32 }, { form := .basic .char }, { form := .record ⟨9⟩ },
      { form := .function { result := ⟨0⟩, params := [{ type := ⟨5⟩ }] } },
      { form := .record ⟨7⟩ }, { form := .record ⟨6⟩ },
      { form := .function { result := ⟨0⟩, params := [{ type := ⟨7⟩ }, { type := ⟨8⟩ }] } }]

theorem nests_built : nests.Built :=
  Graph.built_of_takeAll?
    [.symbol { ident := "app", sort := .moduleScope },
      .symbol { ident := "outer", parent := some ⟨0⟩, sort := .namespaceScope },
      .symbol { ident := "inner", parent := some ⟨1⟩, sort := .namespaceScope },
      .symbol { ident := "Point", parent := some ⟨2⟩, sort := .record .struct },
      .type { form := .basic .void }, .type { form := .record ⟨3⟩ },
      .type { form := .function { result := ⟨0⟩, params := [{ type := ⟨1⟩ }] } },
      .symbol { ident := "place", parent := some ⟨2⟩, sort := .function { type := ⟨2⟩ } },
      .symbol { ident := "Box", parent := some ⟨0⟩, sort := .template none },
      .type { form := .basic .int32 }, .type { form := .basic .char },
      .specialization ⟨5⟩ [.type ⟨3⟩],
      .symbol { ident := "Box", parent := some ⟨6⟩, sort := .record .struct },
      .specialization ⟨5⟩ [.type ⟨4⟩],
      .symbol { ident := "Box", parent := some ⟨8⟩, sort := .record .struct },
      .type { form := .record ⟨9⟩ },
      .type { form := .function { result := ⟨0⟩, params := [{ type := ⟨5⟩ }] } },
      .symbol { ident := "get", parent := some ⟨7⟩, sort := .function { type := ⟨6⟩ } },
      .type { form := .record ⟨7⟩ }, .type { form := .record ⟨6⟩ },
      .type { form := .function { result := ⟨0⟩, params := [{ type := ⟨7⟩ }, { type := ⟨8⟩ }] } },
      .symbol { ident := "pair", parent := some ⟨0⟩, sort := .function { type := ⟨9⟩ } }] rfl

/-- Both namespaces come before `Point`, and `Box` comes before its second member. -/
theorem slots_follow_scopes_nests :
    (∃ tokens session,
      (encode Target.itanium64 ⟨4⟩ : Encoder nests (List Token)).run
          { tables := Table.unbounded } = .ok tokens session ∧
        session.tables.entries[2]? = some (.symbol ⟨3⟩) ∧
        ∃ outer < 2, session.tables.entries[outer]? = some (.symbol ⟨1⟩)) ∧
    ∃ tokens session,
      (encode Target.itanium64 ⟨10⟩ : Encoder nests (List Token)).run
          { tables := Table.unbounded } = .ok tokens session ∧
        session.tables.entries[2]? = some (.symbol ⟨9⟩) ∧
        ∃ general < 2, session.tables.entries[general]? = some (.symbol ⟨5⟩) := by
  constructor
  · refine ⟨_, _, rfl, rfl, ?_⟩
    obtain ⟨scopes, -⟩ := slots_follow_scopes nests_built .itanium64 ⟨4⟩ _ _ rfl
    have enclosed : ∀ step < 2, nests.EnclosedBy ⟨3 - step⟩ ⟨3 - (step + 1)⟩ := by
      intro step inside
      obtain rfl | rfl : step = 0 ∨ step = 1 := by omega
      · exact ⟨Graph.namedOutright_of_unspecialized (by decide), _, rfl, rfl, nofun⟩
      · exact ⟨Graph.namedOutright_of_unspecialized (by decide), _, rfl, rfl, nofun⟩
    obtain ⟨outer, found, -, sooner | ⟨-, run⟩⟩ :=
      scopes (fun step => ⟨3 - step⟩) 2 2 Nat.zero_lt_two enclosed rfl
    · exact ⟨outer, sooner, found⟩
    · cases run 1 (by decide)
  · refine ⟨_, _, rfl, rfl, ?_⟩
    obtain ⟨-, templates⟩ := slots_follow_scopes nests_built .itanium64 ⟨10⟩ _ _ rfl
    have outright : nests.NamedOutright ⟨9⟩ := Graph.namedOutright_of_unspecialized (by decide)
    obtain ⟨general, found, -, sooner | ⟨-, -, rfl | ⟨outer, ⟨⟩, -⟩⟩⟩ :=
      templates ⟨9⟩ _ _ ⟨5⟩ 2 outright rfl rfl rfl rfl
    · exact ⟨general, sooner, found⟩
    · cases found

/-- The specialization of `Box` for `int` holds templates `Lid` and `Rim`; a `Pin` lies in a member
of a specialization of `Lid`, and the first parameter of `close` has `Lid` as an argument. -/
def lids : Graph where
  symbols :=
    [{ ident := "app", sort := .moduleScope },
      { ident := "Box", parent := some ⟨0⟩, sort := .template none },
      { ident := "Box", parent := some ⟨0⟩, sort := .specialization ⟨1⟩ [.type ⟨0⟩] },
      { ident := "Lid", parent := some ⟨2⟩, sort := .template (some ⟨5⟩) },
      { ident := "Lid", parent := some ⟨2⟩, sort := .specialization ⟨3⟩ [.type ⟨0⟩] },
      { ident := "Lid", parent := some ⟨4⟩, sort := .record .struct },
      { ident := "Pin", parent := some ⟨5⟩, sort := .record .struct },
      { ident := "Rim", parent := some ⟨2⟩, sort := .template none },
      { ident := "Rim", parent := some ⟨2⟩, sort := .specialization ⟨7⟩ [.type ⟨0⟩] },
      { ident := "Rim", parent := some ⟨8⟩, sort := .record .struct },
      { ident := "Use", parent := some ⟨0⟩, sort := .template none },
      { ident := "Use", parent := some ⟨0⟩, sort := .specialization ⟨10⟩ [.symbolAlias ⟨3⟩] },
      { ident := "close", parent := some ⟨0⟩, sort := .function { type := ⟨5⟩ } }]
  types :=
    [{ form := .basic .int32 }, { form := .basic .void }, { form := .record ⟨11⟩ },
      { form := .record ⟨6⟩ }, { form := .record ⟨9⟩ },
      { form := .function
          { result := ⟨1⟩, params := [{ type := ⟨2⟩ }, { type := ⟨3⟩ }, { type := ⟨4⟩ }] } }]

theorem lids_built : lids.Built :=
  Graph.built_of_takeAll?
    [.type { form := .basic .int32 }, .type { form := .basic .void },
      .symbol { ident := "app", sort := .moduleScope },
      .symbol { ident := "Box", parent := some ⟨0⟩, sort := .template none },
      .specialization ⟨1⟩ [.type ⟨0⟩],
      .symbol { ident := "Lid", parent := some ⟨2⟩, sort := .template none },
      .specialization ⟨3⟩ [.type ⟨0⟩],
      .symbol { ident := "Lid", parent := some ⟨4⟩, sort := .record .struct },
      .member ⟨3⟩ ⟨5⟩,
      .symbol { ident := "Pin", parent := some ⟨5⟩, sort := .record .struct },
      .symbol { ident := "Rim", parent := some ⟨2⟩, sort := .template none },
      .specialization ⟨7⟩ [.type ⟨0⟩],
      .symbol { ident := "Rim", parent := some ⟨8⟩, sort := .record .struct },
      .symbol { ident := "Use", parent := some ⟨0⟩, sort := .template none },
      .specialization ⟨10⟩ [.symbolAlias ⟨3⟩], .type { form := .record ⟨11⟩ },
      .type { form := .record ⟨6⟩ }, .type { form := .record ⟨9⟩ },
      .type
        { form :=
            .function
              { result := ⟨1⟩, params := [{ type := ⟨2⟩ }, { type := ⟨3⟩ }, { type := ⟨4⟩ }] } },
      .symbol { ident := "close", parent := some ⟨0⟩, sort := .function { type := ⟨5⟩ } }] rfl

/-- A scope comes before those around it and before the template of its level. A member may come
before its specialization, and so may the members of a template that is declared in one. -/
theorem scopes_before_outer :
    nests.Built ∧ lids.Built ∧
    nameFor nests .itanium64 ⟨4⟩ = .ok "_ZN5outer5inner5placeENS_5PointE" ∧
    nameFor nests .itanium64 ⟨10⟩ = .ok "_ZN3BoxIiE3getES0_IcE" ∧
    nameFor nests .itanium64 ⟨11⟩ = .ok "_Z4pair3BoxIiES_IiE" ∧
    nameFor lids .itanium64 ⟨12⟩ = .ok "_Z5close3UseI3BoxIiEENS1_IiE3PinENS0_IiE3RimIiEE" ∧
    (∀ id ∈ [(⟨4⟩ : SymbolId), ⟨11⟩], ∃ tokens session,
      (encode Target.itanium64 id : Encoder nests (List Token)).run
          { tables := Table.unbounded } = .ok tokens session ∧
        ¬ ∀ inner outer (i j : Nat), nests.scopeParent inner = .ok (some outer) →
          session.tables.entries[i]? = some (.symbol inner) →
          session.tables.entries[j]? = some (.symbol outer) → j < i) ∧
    (∃ tokens session,
      (encode Target.itanium64 ⟨12⟩ : Encoder lids (List Token)).run
          { tables := Table.unbounded } = .ok tokens session ∧
        lids.level ⟨5⟩ = .ok { name := ⟨4⟩, scope := some ⟨2⟩, template := some ⟨3⟩ } ∧
        session.tables.entries[4]? = some (.symbol ⟨5⟩) ∧
        session.tables.entries[6]? = some (.symbol ⟨2⟩)) ∧
    ∃ tokens session,
      (encode Target.itanium64 ⟨10⟩ : Encoder nests (List Token)).run
          { tables := Table.unbounded } = .ok tokens session ∧
        ¬ ∀ id level symbol template (i j : Nat), nests.level id = .ok level →
          nests.symbol level.name = .ok symbol → symbol.template? = some template →
          session.tables.entries[i]? = some (.symbol id) →
          session.tables.entries[j]? = some (.symbol template) → j < i := by
  refine ⟨nests_built, lids_built, by decide +kernel, by decide +kernel, by decide +kernel,
    by decide +kernel, ?_, ?_, ?_⟩
  · simp only [List.forall_mem_cons, List.not_mem_nil, false_implies, implies_true, and_true]
    constructor
    · exact ⟨_, _, rfl, fun first => absurd (first ⟨2⟩ ⟨1⟩ 0 1 rfl rfl rfl) (by decide)⟩
    · exact ⟨_, _, rfl, fun first => absurd (first ⟨7⟩ ⟨6⟩ 1 2 rfl rfl rfl) (by decide)⟩
  · exact ⟨_, _, rfl, rfl, rfl, rfl⟩
  · exact ⟨_, _, rfl, fun first =>
      absurd (first ⟨7⟩ _ _ ⟨5⟩ 0 1 rfl rfl rfl rfl rfl) (by decide)⟩

end Itanium

end LinkName
