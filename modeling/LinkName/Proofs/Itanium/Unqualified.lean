import LinkName.Proofs.Itanium.Origin

/-!
Types below their `const`. A record or an enumeration is known by the slot of its symbol, with `const`
and without. A pointer, an array, a vector or a vendor extension has no such slot: what has been
written of it with `const` says nothing about it without.
-/
namespace LinkName

namespace TypeTree

/-- The symbol by which a record or an enumeration is known. -/
def record? : TypeTree → Option SymbolId
  | .named .record symbol _ | .named (.enumeration _) symbol _ => some symbol
  | _ => none

/-- Whether the type is a pointer, an array, a vector or an imaginary or complex number, all of which
are known by themselves only. -/
def isCompound : TypeTree → Bool
  | .basic builtin _ => Itanium.isExtended builtin
  | .layer .pointer _ _ | .layer (.staticArray _) _ _ | .layer .vector _ _ => true
  | _ => false

variable {tree : TypeTree}

theorem isCompound_mutable (tree : TypeTree) : tree.mutable.isCompound = tree.isCompound := by
  cases tree with
  | layer around inner quals => cases around <;> rfl
  | _ => rfl

theorem record?_mutable (tree : TypeTree) : tree.mutable.record? = tree.record? := by
  cases tree with
  | named naming symbol quals => cases naming <;> rfl
  | _ => rfl

theorem isConst_mutable (tree : TypeTree) : tree.mutable.isConst = false := by
  cases tree <;> rfl

theorem mutable_ne (const : tree.isConst = true) : tree.mutable ≠ tree := by
  intro same
  rw [← same] at const
  cases tree <;> cases const

end TypeTree

namespace Itanium

variable {graph : Graph} {target : Target} {tree : TypeTree} {depth more : Nat}
variable {place place' : Place} {table before after later last : Table Key} {tokens : List Token}

/-- What is written has some depth, and no foreign qualifiers. -/
theorem proper_of_run
    (ran : (typeScript graph target depth tree place).run before = .ok (tokens, last)) :
    ∃ lower, depth = lower + 1 ∧ tree.isForeign = false := by
  cases depth with
  | zero => cases ran
  | succ lower =>
      refine ⟨lower, rfl, ?_⟩
      cases foreign : tree.isForeign with
      | false => rfl
      | true =>
          simp only [typeScript, Plan.within, Plan.item, Plan.type, foreign] at ran
          cases ran

/-! ## Types that are known by themselves -/

/-- How a compound type is spelled out: from a text on, with at most one part, and with a slot that is
taken at once or when it is complete. -/
inductive Spelling (plan : Plan) : TypeTree → Script → Prop
  | whole {tree : TypeTree} {letter : String} {rest : List Token} :
      Spelling plan tree (.storeThen (.type tree) (.write (.text letter :: rest)))
  | around {around : Layer} {inner : TypeTree} {quals : Qualifiers} {letter : String}
      {rest : List Token} :
      Spelling plan (.layer around inner quals) (.thenStore (.type (.layer around inner quals))
        (.append (.write (.text letter :: rest)) (plan (.type inner .nested))))

theorem typeScript_compound (isCompound : tree.isCompound = true) (proper : tree.isForeign = false)
    (graph : Graph) (target : Target) (lower : Nat) (place : Place) :
    ∃ body, typeScript graph target (lower + 1) tree place = .orRef (.type tree) body ∧
      Spelling (Plan.within graph target lower) tree body := by
  simp only [typeScript, Plan.within, Plan.item, Plan.type, proper]
  cases tree with
  | basic basic quals =>
      have extended : isExtended basic = true := isCompound
      simp only [Plan.basicType, extended, Bool.true_or, if_true]
      cases quals.isConst <;> exact ⟨_, rfl, .whole⟩
  | layer around inner quals =>
      rcases quals with ⟨_ | _, _, _⟩ <;> cases around with
      | pointer | staticArray | vector => exact ⟨_, rfl, .around⟩
      | _ => cases isCompound
  | _ => cases isCompound

theorem Spelling.run {plan : Plan} {body : Script} (spelling : Spelling plan tree body)
    (ran : body.run table = .ok (tokens, last)) :
    (∃ letter rest, tokens = .text letter :: rest) ∧
      (table.limit = none → .type tree ∈ last.entries) := by
  have pushed {table : Table Key} (key : Key) (unlimited : table.limit = none) :
      key ∈ (table.push key).2.entries := by simp [Table.entries_push_of_unlimited unlimited]
  cases spelling with
  | whole =>
      cases ran
      exact ⟨⟨_, _, rfl⟩, pushed _⟩
  | around =>
      obtain ⟨middle, ended, rfl⟩ := Script.run_thenStore ran
      obtain ⟨written, begun, rfl⟩ := Script.run_write_append ended
      have kept := (Script.run_grows _ ended).limit
      exact ⟨⟨_, _, rfl⟩, fun unlimited => pushed _ (kept.trans unlimited)⟩

/-- A compound type is referred back to if it has a slot, and is spelled out if not. -/
theorem run_compound (isCompound : tree.isCompound = true)
    (ran : (typeScript graph target depth tree place).run table = .ok (tokens, last)) :
    (.type tree ∈ table.entries ∧ (∃ slot, tokens = [.backRef slot]) ∧ last = table) ∨
      .type tree ∉ table.entries ∧ (∃ letter rest, tokens = .text letter :: rest) ∧
        (table.limit = none → .type tree ∈ last.entries) := by
  obtain ⟨lower, rfl, proper⟩ := proper_of_run ran
  obtain ⟨body, same, spelling⟩ := typeScript_compound isCompound proper graph target lower place
  rw [same] at ran
  rcases Script.run_orRef ran with ⟨slot, found, rfl, rfl⟩ | ⟨unknown, inner⟩
  · exact .inl ⟨List.mem_of_getElem? (Table.getElem?_of_find? found), ⟨slot, rfl⟩, rfl⟩
  · exact .inr ⟨Table.find?_eq_none_iff.mp unknown, spelling.run inner⟩

/-- Nothing in the part of a compound type has the weight of the type. -/
theorem not_mem_keys_around (formed : graph.WellFormed) {machine : Target} {around : Layer}
    {inner other : TypeTree} {quals : Qualifiers} {lead : List Token}
    (held : ∀ symbol ∈ (TypeTree.layer around inner quals).symbols, graph.Holds (.symbol symbol))
    (heavy : ∀ rank, other.weight rank = (TypeTree.layer around inner quals).weight rank) :
    .type other ∉ (Script.append (.write lead)
      (Plan.within graph machine depth (.type inner .nested))).keys := by
  intro inside
  have heldInner : (Item.type inner Place.nested : Item).Held graph := held
  have light : (Key.type other).Below formed.order _ :=
    Plan.within_within formed formed.order depth heldInner _ inside
  have less := light.2
  rw [heavy] at less
  exact Nat.lt_irrefl _ less

/-- While a compound type is written, it has no slot that it has not had before. -/
theorem mem_of_meets_compound (formed : graph.WellFormed) (isCompound : tree.isCompound = true)
    (held : ∀ symbol ∈ tree.symbols, graph.Holds (.symbol symbol)) {next : Script}
    (text : ∀ written, next ≠ .write written) (proper : tree.isForeign = false)
    (meets : Script.Meets next (typeScript graph target depth tree place) table later)
    (listed : .type tree ∈ later.entries) : .type tree ∈ table.entries := by
  cases depth with
  | zero =>
      cases meets
      exact listed
  | succ lower =>
      obtain ⟨body, same, spelling⟩ := typeScript_compound isCompound proper graph target lower place
      rw [same] at meets
      cases meets with
      | here => exact listed
      | orRef unknown inside =>
          cases spelling with
          | whole =>
              cases inside with
              | here => exact listed
              -- The slot is taken before the text is written, but there is nothing else to come to.
              | storeThen inside =>
                  cases inside
                  exact absurd rfl (text _)
          | around =>
              cases inside with
              | here => exact listed
              | thenStore inside =>
                  refine (inside.mem_keys listed).resolve_right ?_
                  exact not_mem_keys_around formed held fun _ => rfl

/-- What is written with `const` gives the type without it no slot. -/
theorem mem_of_run_const (formed : graph.WellFormed) (isCompound : tree.isCompound = true)
    (held : ∀ symbol ∈ tree.symbols, graph.Holds (.symbol symbol)) (const : tree.isConst = true)
    (ran : (typeScript graph target depth tree place).run before = .ok (tokens, after)) :
    .type tree.mutable ∈ after.entries ↔ .type tree.mutable ∈ before.entries := by
  refine ⟨fun listed => ?_, fun known => (Script.run_grows _ ran).entries.subset known⟩
  obtain ⟨lower, rfl, proper⟩ := proper_of_run ran
  obtain ⟨body, same, spelling⟩ := typeScript_compound isCompound proper graph target lower place
  rw [same] at ran
  refine (Script.mem_of_run _ ran listed).resolve_right fun new => ?_
  have apart : Key.type tree.mutable ≠ .type tree := fun same =>
    TypeTree.mutable_ne const (Key.type.inj same)
  have inside := (List.mem_cons.mp new).resolve_left apart
  cases spelling with
  | whole => exact apart (List.mem_singleton.mp inside)
  | around =>
      refine not_mem_keys_around formed held ?_ ((List.mem_cons.mp inside).resolve_left apart)
      exact fun _ => TypeTree.weight_mutable _

/-! ## Types that are known by their symbol -/

theorem typeScript_record {symbol : SymbolId} (record : tree.record? = some symbol)
    (proper : tree.isForeign = false) (graph : Graph) (target : Target) (lower : Nat) (place : Place) :
    typeScript graph target (lower + 1) tree place =
      .orRef (.type tree) (.thenStoreIf tree.isConst (.type tree)
        (.append (.write (Plan.constMark tree.isConst))
          ((Plan.within graph target lower).mention graph symbol))) := by
  simp only [typeScript, Plan.within, Plan.item, Plan.type, proper]
  cases tree with
  | named naming other quals =>
      cases naming with
      | record | enumeration =>
          cases record
          rfl
      | _ => cases record
  | _ => cases record

/-- A record or an enumeration without a slot of its own is written as its symbol is. -/
theorem run_of_record {symbol : SymbolId} (record : tree.record? = some symbol)
    (ran : (typeScript graph target depth tree place).run table = .ok (tokens, last)) :
    (.type tree ∈ table.entries ∧ (∃ slot, tokens = [.backRef slot]) ∧ last = table) ∨
      .type tree ∉ table.entries ∧ ∃ lower rest middle,
        ((Plan.within graph target lower).mention graph symbol).run table =
          .ok (rest, middle) ∧
        tokens = Plan.constMark tree.isConst ++ rest ∧
        last = if tree.isConst then (middle.push (.type tree)).2 else middle := by
  obtain ⟨lower, rfl, proper⟩ := proper_of_run ran
  rw [typeScript_record record proper graph target lower place] at ran
  rcases Script.run_orRef ran with ⟨slot, found, rfl, rfl⟩ | ⟨unknown, inner⟩
  · exact .inl ⟨List.mem_of_getElem? (Table.getElem?_of_find? found), ⟨slot, rfl⟩, rfl⟩
  · obtain ⟨middle, ended, stored⟩ := Script.run_thenStoreIf inner
    obtain ⟨rest, mentioned, whole⟩ := Script.run_write_append ended
    exact .inr ⟨Table.find?_eq_none_iff.mp unknown, lower, rest, middle, mentioned, whole, stored⟩

theorem mem_of_run_mention {plan : Plan} {symbol : SymbolId} (unlimited : table.limit = none)
    (ran : (plan.mention graph symbol).run table = .ok (tokens, last)) :
    .symbol symbol ∈ last.entries := by
  rcases Script.run_compound ran with ⟨slot, stands, -, rfl⟩ | ⟨middle, inner, rfl⟩
  · exact List.mem_of_getElem? stands
  · have kept := (Script.run_grows _ inner).limit.trans unlimited
    simp [Table.entries_push_of_unlimited kept]

theorem run_mention_known {plan : Plan} {symbol : SymbolId} (known : .symbol symbol ∈ table.entries)
    (ran : (plan.mention graph symbol).run table = .ok (tokens, last)) :
    (∃ slot, tokens = [.backRef slot]) ∧ last = table := by
  rcases Script.run_orRef ran with ⟨slot, -, rfl, rfl⟩ | ⟨unknown, -⟩
  · exact ⟨⟨slot, rfl⟩, rfl⟩
  · exact absurd known (Table.find?_eq_none_iff.mp unknown)

/-- A record or an enumeration that has been spelled out is referred back to without its `const`. -/
theorem run_record_again {symbol : SymbolId} (record : tree.record? = some symbol)
    (spelled : .type tree ∉ before.entries) (unlimited : before.limit = none)
    (ran : (typeScript graph target depth tree place).run before = .ok (tokens, after))
    (grows : after.Grows later) {written : List Token}
    (again : (typeScript graph target more tree.mutable place').run later = .ok (written, last)) :
    (∃ slot, written = [.backRef slot]) ∧ last = later := by
  obtain ⟨_, _, middle, mentioned, -, stored⟩ :=
    ((run_of_record record ran).resolve_left fun known => spelled known.1).2
  have known : .symbol symbol ∈ later.entries := by
    refine grows.entries.subset ?_
    have listed := mem_of_run_mention unlimited mentioned
    subst stored
    split
    · exact (Table.entries_prefix_push _ _).subset listed
    · exact listed
  have record' : tree.mutable.record? = some symbol := tree.record?_mutable.trans record
  rcases run_of_record record' again with ⟨-, referred⟩ | ⟨-, _, rest, _, mentioned', rfl, rfl⟩
  · exact referred
  · simp only [TypeTree.isConst_mutable]
    exact run_mention_known known mentioned'

/-! ## Whole names -/

/-- When a name comes to a compound type, the type has a slot exactly if it has been written before. -/
theorem mem_iff_leads {id : SymbolId} (formed : graph.WellFormed) (isCompound : tree.isCompound = true)
    (held : ∀ symbol ∈ tree.symbols, graph.Holds (.symbol symbol)) {written : List Token}
    (named : (nameScript graph target id).run Table.unbounded = .ok (tokens, table))
    (meets : Script.Meets (typeScript graph target depth tree place) (nameScript graph target id)
      Table.unbounded later)
    (ran : (typeScript graph target depth tree place).run later = .ok (written, last)) :
    .type tree ∈ later.entries ↔ ∃ part start stop, IsTypeScript graph target tree part ∧
      Script.Leads part (typeScript graph target depth tree place) (nameScript graph target id)
        Table.unbounded start stop later := by
  constructor
  · intro known
    obtain ⟨lower, rfl, proper⟩ := proper_of_run ran
    obtain ⟨body, same, -⟩ := typeScript_compound isCompound proper graph target lower place
    have text : ∀ written, typeScript graph target (lower + 1) tree place ≠ .write written := by
      intro written literal
      cases same.symm.trans literal
    refine ((nameScript_homed id).leads ?_ meets known).resolve_left List.not_mem_nil
    rintro _ ⟨_, _, rfl⟩ table stop inside listed
    exact mem_of_meets_compound formed isCompound held text proper inside listed
  · rintro ⟨_, start, stop, ⟨_, _, rfl⟩, sooner⟩
    obtain ⟨begun, ⟨_, first⟩, onward⟩ := sooner.run named
    refine onward.entries.subset ?_
    rcases run_compound isCompound first with ⟨known, -, rfl⟩ | ⟨-, -, stored⟩
    · exact known
    · exact stored begun.limit

/-- Where a type has been spelled out with its `const` and comes up again without it. A record or an
enumeration is referred back to. A pointer, an array, a vector or an imaginary or complex number has
got no slot by that: it is referred back to exactly if it has been written without the `const`
before, and is spelled out if not. -/
theorem nameFor_unqualified {id : SymbolId} {text : String} (built : graph.Built)
    (named : nameFor graph target id = .ok text) (const : tree.isConst = true)
    (held : ∀ symbol ∈ tree.symbols, graph.Holds (.symbol symbol))
    (leads : Script.Leads (typeScript graph target depth tree place)
      (typeScript graph target more tree.mutable place') (nameScript graph target id)
      Table.unbounded before after later)
    (spelled : .type tree ∉ before.entries) :
    let again := typeScript graph target more tree.mutable place'
    (∀ base : Overlay graph,
      Follows base (encode target id) (nameScript graph target id)) ∧
    (∀ (base : Overlay graph) node, base.Unfolds node tree.mutable →
      Follows base ((encoding target more : Encoding graph).type node place') again) ∧
    ∃ tokens last, again.run later = .ok (tokens, last) ∧
      (tree.record?.isSome = true → (∃ slot, tokens = [.backRef slot]) ∧ last = later) ∧
      (tree.isCompound = true →
        (.type tree.mutable ∈ after.entries ↔ .type tree.mutable ∈ before.entries) ∧
        ((∃ slot, tokens = [.backRef slot]) ↔
          ∃ part start stop, IsTypeScript graph target tree.mutable part ∧
            Script.Leads part again (nameScript graph target id) Table.unbounded start stop later) ∧
        ((∃ slot, tokens = [.backRef slot]) ∧ last = later ∨
          ∃ letter rest, tokens = .text letter :: rest)) := by
  intro again
  have formed := built.wellFormed
  obtain ⟨_, _, _, encoded, ran, -⟩ := session_of_nameFor formed named
  obtain ⟨grown, ⟨_, wrote⟩, onward⟩ := leads.run ran
  obtain ⟨-, tokens, last, rewrote, -⟩ := leads.meets.grows ran
  refine ⟨follows_encode formed _ (holds_of_encode encoded), fun base node unfolds =>
    (followsPlan_within formed _ more).type base node tree.mutable place' unfolds,
    tokens, last, rewrote, fun isRecord => ?_, fun isCompound => ?_⟩
  · obtain ⟨symbol, record⟩ := Option.isSome_iff_exists.mp isRecord
    exact run_record_again record spelled grown.limit wrote onward rewrote
  · have isCompound' : tree.mutable.isCompound = true := tree.isCompound_mutable.trans isCompound
    have held' : ∀ symbol ∈ tree.mutable.symbols, graph.Holds (.symbol symbol) :=
      tree.symbols_mutable ▸ held
    have sooner := mem_iff_leads formed isCompound' held' ran leads.meets rewrote
    refine ⟨mem_of_run_const formed isCompound held const wrote, ?_⟩
    rcases run_compound isCompound' rewrote with ⟨known, referred, same⟩ | ⟨absent, spelledOut, -⟩
    · exact ⟨iff_of_true referred (sooner.mp known), .inl ⟨referred, same⟩⟩
    · refine ⟨iff_of_false ?_ (mt sooner.mpr absent), .inr spelledOut⟩
      rintro ⟨slot, rfl⟩
      obtain ⟨_, _, differs⟩ := spelledOut
      cases differs

/-- `void keep(const Node *, Node *)` and `void bind(int *const *, int **)`. -/
def bindings : Graph where
  symbols :=
    [{ ident := "app", sort := .moduleScope },
      { ident := "Node", parent := some ⟨0⟩, sort := .record .struct },
      { ident := "keep", parent := some ⟨0⟩, sort := .function { type := ⟨8⟩ } },
      { ident := "bind", parent := some ⟨0⟩, sort := .function { type := ⟨11⟩ } }]
  types :=
    [{ form := .basic .void }, { form := .basic .int32 }, { form := .record ⟨1⟩ },
      { form := .record ⟨1⟩, quals := { isConst := true } }, { form := .pointer ⟨1⟩ },
      { form := .pointer ⟨1⟩, quals := { isConst := true } }, { form := .pointer ⟨3⟩ },
      { form := .pointer ⟨2⟩ },
      { form := .function { result := ⟨0⟩, params := [{ type := ⟨6⟩ }, { type := ⟨7⟩ }] } },
      { form := .pointer ⟨5⟩ }, { form := .pointer ⟨4⟩ },
      { form := .function { result := ⟨0⟩, params := [{ type := ⟨9⟩ }, { type := ⟨10⟩ }] } }]

theorem bindings_built : bindings.Built :=
  Graph.built_of_takeAll?
    [.symbol { ident := "app", sort := .moduleScope },
      .symbol { ident := "Node", parent := some ⟨0⟩, sort := .record .struct },
      .type { form := .basic .void }, .type { form := .basic .int32 },
      .type { form := .record ⟨1⟩ }, .type { form := .record ⟨1⟩, quals := { isConst := true } },
      .type { form := .pointer ⟨1⟩ }, .type { form := .pointer ⟨1⟩, quals := { isConst := true } },
      .type { form := .pointer ⟨3⟩ }, .type { form := .pointer ⟨2⟩ },
      .type
        { form := .function { result := ⟨0⟩, params := [{ type := ⟨6⟩ }, { type := ⟨7⟩ }] } },
      .symbol { ident := "keep", parent := some ⟨0⟩, sort := .function { type := ⟨8⟩ } },
      .type { form := .pointer ⟨5⟩ }, .type { form := .pointer ⟨4⟩ },
      .type
        { form := .function { result := ⟨0⟩, params := [{ type := ⟨9⟩ }, { type := ⟨10⟩ }] } },
      .symbol { ident := "bind", parent := some ⟨0⟩, sort := .function { type := ⟨11⟩ } }] rfl

def constNode : TypeTree := .named .record ⟨1⟩ { isConst := true }

def constPointer : TypeTree := .layer .pointer (.basic .int32 {}) { isConst := true }

abbrev bindingsType (tree : TypeTree) : Script := typeScript bindings .itanium64 135 tree .nested

def bindingsTable (keys : List Key) : Table Key := { limit := none, entries := keys }

/-- The second parameter of `keep` comes to `Node` once the first has been written. -/
theorem bindings_leads_keep :
    Script.Leads (bindingsType constNode) (bindingsType constNode.mutable)
      (nameScript bindings .itanium64 ⟨2⟩) Table.unbounded (bindingsTable [])
      (bindingsTable [.symbol ⟨1⟩, .type constNode])
      (bindingsTable [.symbol ⟨1⟩, .type constNode, .type (.layer .pointer constNode {})]) := by
  refine .second rfl (.second rfl (.first (.apart ?const rfl rfl ?plain)))
  case const => exact .orRef rfl (.thenStore (.second rfl (.here _)))
  case plain => exact .first (.orRef rfl (.thenStore (.second rfl (.here _))))

/-- The second parameter of `bind` comes to the pointer once the first has been written. -/
theorem bindings_leads_bind :
    Script.Leads (bindingsType constPointer) (bindingsType constPointer.mutable)
      (nameScript bindings .itanium64 ⟨3⟩) Table.unbounded (bindingsTable [])
      (bindingsTable [.type constPointer])
      (bindingsTable [.type constPointer, .type (.layer .pointer constPointer {})]) := by
  refine .second rfl (.second rfl (.first (.apart ?const rfl rfl ?plain)))
  case const => exact .orRef rfl (.thenStore (.second rfl (.here _)))
  case plain => exact .first (.orRef rfl (.thenStore (.second rfl (.here _))))

/-- After `const Node` there is a reference to `Node`. After `int *const` there would be one to `int *`
if that had been written before, which it has not. -/
theorem nameFor_unqualified_bindings :
    nameFor bindings .itanium64 ⟨2⟩ = .ok "_Z4keepPK4NodePS_" ∧
    (∃ before after later slot,
      Script.Leads (bindingsType constNode) (bindingsType constNode.mutable)
        (nameScript bindings .itanium64 ⟨2⟩) Table.unbounded before after later ∧
      (bindingsType constNode.mutable).run later = .ok ([.backRef slot], later)) ∧
    nameFor bindings .itanium64 ⟨3⟩ = .ok "_Z4bindPKPiPPi" ∧
    ∃ before after later,
      Script.Leads (bindingsType constPointer) (bindingsType constPointer.mutable)
        (nameScript bindings .itanium64 ⟨3⟩) Table.unbounded before after later ∧
      ¬ ∃ part start stop, IsTypeScript bindings .itanium64 constPointer.mutable part ∧
        Script.Leads part (bindingsType constPointer.mutable) (nameScript bindings .itanium64 ⟨3⟩)
          Table.unbounded start stop later := by
  have keep : nameFor bindings .itanium64 ⟨2⟩ = .ok "_Z4keepPK4NodePS_" := by decide +kernel
  have bind : nameFor bindings .itanium64 ⟨3⟩ = .ok "_Z4bindPKPiPPi" := by decide +kernel
  have held : ∀ symbol ∈ constNode.symbols, bindings.Holds (.symbol symbol) := by
    intro symbol listed
    obtain rfl := List.mem_singleton.mp listed
    exact Graph.holds_symbol_iff.mpr ⟨_, rfl⟩
  obtain ⟨-, -, tokens, last, ran, referred, -⟩ :=
    nameFor_unqualified bindings_built keep rfl held bindings_leads_keep List.not_mem_nil
  obtain ⟨⟨slot, rfl⟩, rfl⟩ := referred rfl
  obtain ⟨-, -, tokens', last', ran', -, exactly⟩ :=
    nameFor_unqualified bindings_built bind rfl (fun _ listed => absurd listed List.not_mem_nil)
      bindings_leads_bind List.not_mem_nil
  refine ⟨keep, ⟨_, _, _, slot, bindings_leads_keep, ran⟩, bind, _, _, _, bindings_leads_bind, ?_⟩
  intro sooner
  obtain ⟨slot', rfl⟩ := (exactly rfl).2.1.mpr sooner
  cases ran'

/-- After `int *const` the pointer without `const` is spelled out. -/
theorem nameFor_bind_spelled_out :
    nameFor bindings .itanium64 ⟨3⟩ = .ok "_Z4bindPKPiPPi" ∧
    ∃ before after later last,
      Script.Leads (bindingsType constPointer) (bindingsType constPointer.mutable)
        (nameScript bindings .itanium64 ⟨3⟩) Table.unbounded before after later ∧
      .type constPointer ∉ before.entries ∧
      (bindingsType constPointer.mutable).run later = .ok ([.text "P", .text "i"], last) :=
  ⟨by decide +kernel, _, _, _, _, bindings_leads_bind, List.not_mem_nil, rfl⟩

end Itanium

end LinkName
