import LinkName.Proofs.Microsoft.Digits

/-!
Levels that are written again. The text of a specialization is compared as it is after compression, so
it may read differently the second time; but what has once been rendered without leaving anything in
the tables is rendered in the same way ever after, and then one digit stands for it.
-/
namespace LinkName

/-! ## Tables that fill up -/

namespace Table

variable {κ : Type}

/-- A later state of a table that takes nothing once it is full. -/
structure Fills (table later : Table κ) : Prop extends table.Grows later where
  full : table.isFull = true → later = table

theorem Grows.antisymm {first second : Table κ} (grows : Grows first second)
    (back : Grows second first) : second = first := by
  obtain ⟨limit, entries⟩ := grows
  have same := entries.eq_of_length (le_antisymm entries.length_le back.entries.length_le)
  cases first
  cases second
  simp_all

namespace Fills

variable {first second third : Table κ}

theorem refl (table : Table κ) : Fills table table := ⟨.refl _, fun _ => rfl⟩

theorem trans (fills : Fills first second) (further : Fills second third) : Fills first third where
  toGrows := fills.toGrows.trans further.toGrows
  full full := by
    have same := fills.full full
    subst same
    exact further.full full

theorem push (table : Table κ) (key : κ) : Fills table (table.push key).2 where
  toGrows := .push table key
  full full := by simp [Table.push, full]

theorem insertUnique [DecidableEq κ] (table : Table κ) (key : κ) :
    Fills table (table.insertUnique key) := by
  unfold Table.insertUnique
  split
  · exact .refl _
  · exact .push _ _

/-- A key that a table does not take is not taken by any later state either. -/
theorem same_of_push {key : κ} (fills : Fills first second) (kept : (first.push key).2 = first) :
    second = first := by
  refine fills.full ?_
  by_contra room
  have longer := congrArg (fun table => table.entries.length) kept
  simp [Table.entries_push, room] at longer

/-- A key that a table does not take is not taken later. -/
theorem push_kept {key : κ} (fills : Fills first second) (kept : (first.push key).2 = first) :
    (second.push key).2 = second := by
  rwa [fills.same_of_push kept]

theorem insertUnique_kept [DecidableEq κ] {key : κ} (fills : Fills first second)
    (kept : first.insertUnique key = first) :
    second.insertUnique key = second ∧ (key ∉ first.entries → key ∉ second.entries) := by
  by_cases listed : key ∈ first.entries
  · exact ⟨insertUnique_eq_self (fills.entries.subset listed), fun absent => absurd listed absent⟩
  · obtain rfl := fills.same_of_push (insertUnique_eq_push listed ▸ kept)
    exact ⟨kept, id⟩

end Fills

end Table

namespace Microsoft

/-- A later state of a record whose tables take nothing once they are full. -/
structure Record.Fills (record later : Record) : Prop where
  names : record.names.Fills later.names
  types : record.types.Fills later.types

namespace Record

variable {first second third : Record}

theorem Grows.antisymm (grows : first.Grows second) (back : second.Grows first) :
    second = first := by
  have names := grows.names.antisymm back.names
  have types := grows.types.antisymm back.types
  cases first
  cases second
  simp_all

namespace Fills

theorem refl (record : Record) : Fills record record := ⟨.refl _, .refl _⟩

theorem trans (fills : Fills first second) (further : Fills second third) : Fills first third :=
  ⟨fills.names.trans further.names, fills.types.trans further.types⟩

theorem insertUnique (record : Record) (key : List Char) :
    record.Fills { record with names := record.names.insertUnique key } :=
  ⟨.insertUnique _ _, .refl _⟩

theorem push (record : Record) (tree : TypeTree) :
    record.Fills { record with types := (record.types.push tree).2 } :=
  ⟨.refl _, .push _ _⟩

theorem grows (fills : Fills first second) : first.Grows second :=
  ⟨fills.names.toGrows, fills.types.toGrows⟩

end Fills

end Record

namespace Script

theorem run_fills (script : Script) {record last : Record} {tokens : List Token}
    (ran : script.run record = .ok (tokens, last)) : record.Fills last :=
  run_relates .refl .trans .insertUnique .push script ran

/-- What leaves nothing in the tables reads the same from then on. -/
theorem run_quiet (script : Script) {record later : Record} {tokens : List Token}
    (ran : script.run record = .ok (tokens, record)) (fills : record.Fills later) :
    script.run later = .ok (tokens, later) := by
  -- The tables of all parts are the same, since they only grow and come back to where they began.
  -- What they do not know and do not take is not taken for want of room, then and later.
  induction script generalizing record later tokens with
  | write written =>
      cases ran
      rfl
  | refuse refusal => cases ran
  | append first second before after =>
      obtain ⟨_, middle, _, begun, ended, rfl⟩ := run_append ran
      obtain rfl := (run_grows first begun).antisymm (run_grows second ended)
      exact run_append_of (before begun fills) (after ended fills)
  | level spelledOut body ih =>
      obtain ⟨inner, middle, begun, ⟨index, rfl, found, rfl, same⟩ | ⟨absent, rfl, same⟩⟩ :=
        run_level ran
      · subst same
        exact run_level_known (ih begun fills) (fills.names.toGrows.find? found)
      · have back : middle.Grows record := same ▸ (Record.Fills.insertUnique _ _).grows
        obtain rfl := (run_grows body begun).antisymm back
        obtain ⟨kept, fresh⟩ := fills.names.insertUnique_kept (congrArg Record.names same).symm
        have again := run_level_fresh (ih begun fills) fun plain => fresh (absent plain)
        rwa [kept] at again
  | orTypeRef tree body ih =>
      rcases run_orTypeRef ran with ⟨index, found, rfl, -⟩ | ⟨absent, inner⟩
      · exact run_orTypeRef_known (fills.types.toGrows.find? found)
      · have same := (Record.Fills.push record tree).grows.antisymm (run_grows body inner)
        have kept : (record.types.push tree).2 = record.types := congrArg Record.types same
        have fresh : later.types.find? tree = none := by
          rw [fills.types.same_of_push kept]
          exact Table.find?_eq_none_iff.mpr absent
        rw [same] at inner
        rw [run_orTypeRef_fresh fresh, fills.types.push_kept kept]
        exact ih inner fills
  | typeRefAfter tree lead body ih =>
      obtain ⟨inner, middle, begun, ⟨index, found, rfl, same⟩ | ⟨absent, rfl, same⟩⟩ :=
        run_typeRefAfter ran
      · subst same
        exact run_typeRefAfter_known (ih begun fills) (fills.types.toGrows.find? found)
      · have back : middle.Grows record := same ▸ (Record.Fills.push _ _).grows
        obtain rfl := (run_grows body begun).antisymm back
        have kept := (congrArg Record.types same).symm
        have fresh : later.types.find? tree = none := by
          rw [fills.types.same_of_push kept]
          exact Table.find?_eq_none_iff.mpr absent
        rw [run_typeRefAfter_fresh (ih begun fills) fresh, fills.types.push_kept kept]

/-! ## Parts that a run comes to again -/

/-- A run of the script from `record` comes to `part`, with the tables in the state `before`. -/
inductive Meets (part : Script) : Script → Record → Record → Prop
  | here (record : Record) : Meets part part record record
  | first {first second : Script} {record before : Record} (inside : Meets part first record before) :
      Meets part (.append first second) record before
  | second {first second : Script} {record middle before : Record} {tokens : List Token}
      (begun : first.run record = .ok (tokens, middle)) (inside : Meets part second middle before) :
      Meets part (.append first second) record before
  | inLevel {spelledOut : Bool} {body : Script} {record before : Record}
      (inside : Meets part body record before) : Meets part (.level spelledOut body) record before
  | inType {tree : TypeTree} {body : Script} {record before : Record}
      (absent : tree ∉ record.types.entries)
      (inside : Meets part body { record with types := (record.types.push tree).2 } before) :
      Meets part (.orTypeRef tree body) record before
  | inPointer {tree : TypeTree} {lead : List Token} {body : Script} {record before : Record}
      (inside : Meets part body record before) : Meets part (.typeRefAfter tree lead body) record before

/-- A run of the script writes `part`, which takes the tables from `before` to `after`, and then comes
to it again, with the tables in the state `later`. -/
inductive Repeats (part : Script) : Script → Record → Record → Record → Record → Prop
  | apart {first second : Script} {record before after middle later : Record}
      {written tokens : List Token} (sooner : Meets part first record before)
      (wrote : part.run before = .ok (written, after))
      (begun : first.run record = .ok (tokens, middle)) (again : Meets part second middle later) :
      Repeats part (.append first second) record before after later
  | first {first second : Script} {record before after later : Record}
      (inside : Repeats part first record before after later) :
      Repeats part (.append first second) record before after later
  | second {first second : Script} {record middle before after later : Record} {tokens : List Token}
      (begun : first.run record = .ok (tokens, middle))
      (inside : Repeats part second middle before after later) :
      Repeats part (.append first second) record before after later
  | inLevel {spelledOut : Bool} {body : Script} {record before after later : Record}
      (inside : Repeats part body record before after later) :
      Repeats part (.level spelledOut body) record before after later
  | inType {tree : TypeTree} {body : Script} {record before after later : Record}
      (absent : tree ∉ record.types.entries)
      (inside : Repeats part body { record with types := (record.types.push tree).2 } before after
        later) : Repeats part (.orTypeRef tree body) record before after later
  | inPointer {tree : TypeTree} {lead : List Token} {body : Script}
      {record before after later : Record} (inside : Repeats part body record before after later) :
      Repeats part (.typeRefAfter tree lead body) record before after later

variable {part script : Script} {record before after later last : Record} {tokens : List Token}

/-- What a run comes to is run, between the start and the end of it. -/
theorem Meets.run (meets : Meets part script record before)
    (ran : script.run record = .ok (tokens, last)) :
    record.Fills before ∧ ∃ written after, part.run before = .ok (written, after) ∧
      after.Fills last := by
  induction meets generalizing last tokens with
  | here record => exact ⟨.refl _, tokens, last, ran, .refl _⟩
  | @first first second record before inside ih =>
      obtain ⟨_, _, rest, begun, ended, -⟩ := run_append ran
      obtain ⟨sooner, written, after, wrote, later⟩ := ih begun
      exact ⟨sooner, written, after, wrote, later.trans (run_fills second ended)⟩
  | @second first second record middle before tokens begun inside ih =>
      obtain ⟨_, _, _, begun', ended, -⟩ := run_append ran
      cases begun.symm.trans begun'
      obtain ⟨sooner, wrote⟩ := ih ended
      exact ⟨(run_fills first begun).trans sooner, wrote⟩
  | inLevel inside ih =>
      obtain ⟨inner, middle, begun, ends⟩ := run_level ran
      obtain ⟨sooner, written, after, wrote, later⟩ := ih begun
      refine ⟨sooner, written, after, wrote, later.trans ?_⟩
      rcases ends with ⟨_, _, _, _, rfl⟩ | ⟨_, _, rfl⟩
      · exact .refl _
      · exact .insertUnique _ _
  | inType absent inside ih =>
      rcases run_orTypeRef ran with ⟨_, found, -, -⟩ | ⟨-, inner⟩
      · exact absurd (List.mem_of_getElem? (Table.getElem?_of_find? found)) absent
      · obtain ⟨sooner, wrote⟩ := ih inner
        exact ⟨(Record.Fills.push _ _).trans sooner, wrote⟩
  | inPointer inside ih =>
      obtain ⟨inner, middle, begun, ends⟩ := run_typeRefAfter ran
      obtain ⟨sooner, written, after, wrote, later⟩ := ih begun
      refine ⟨sooner, written, after, wrote, later.trans ?_⟩
      rcases ends with ⟨_, _, _, rfl⟩ | ⟨_, _, rfl⟩
      · exact .refl _
      · exact .push _ _

/-- Both times the part is run, and the tables of the second time have grown from those that the first
time left. -/
theorem Repeats.run (repeats : Repeats part script record before after later)
    (ran : script.run record = .ok (tokens, last)) :
    (∃ written, part.run before = .ok (written, after)) ∧ after.Fills later ∧
      ∃ written final, part.run later = .ok (written, final) := by
  induction repeats generalizing last tokens with
  | apart sooner wrote begun again =>
      obtain ⟨_, _, _, begun', ended, -⟩ := run_append ran
      cases begun.symm.trans begun'
      obtain ⟨-, _, _, wrote', onward⟩ := sooner.run begun
      cases wrote.symm.trans wrote'
      obtain ⟨further, written, final, rewrote, -⟩ := again.run ended
      exact ⟨⟨_, wrote⟩, onward.trans further, written, final, rewrote⟩
  | first inside ih =>
      obtain ⟨_, _, _, begun, -⟩ := run_append ran
      exact ih begun
  | second begun inside ih =>
      obtain ⟨_, _, _, begun', ended, -⟩ := run_append ran
      cases begun.symm.trans begun'
      exact ih ended
  | inLevel inside ih =>
      obtain ⟨_, _, begun, -⟩ := run_level ran
      exact ih begun
  | inType absent inside ih =>
      rcases run_orTypeRef ran with ⟨_, found, -, -⟩ | ⟨-, inner⟩
      · exact absurd (List.mem_of_getElem? (Table.getElem?_of_find? found)) absent
      · exact ih inner
  | inPointer inside ih =>
      obtain ⟨_, _, begun, -⟩ := run_typeRefAfter ran
      exact ih begun

/-- A level that has been written and is written again records no type then. It is written as the
digit of its slot exactly if its text is what it was, and so it is if the first text was written
without anything being recorded. -/
theorem level_again {body : Script} {wrote written : List Token}
    (first : (level false body).run before = .ok (wrote, after)) (fills : after.Fills later)
    (again : (level false body).run later = .ok (written, last)) :
    ∃ inner middle inner' middle', body.run before = .ok (inner, middle) ∧
      body.run later = .ok (inner', middle') ∧ last.types = later.types ∧
      (body.FixedLevels → middle' = later) ∧
      ∀ slot, after.names.find? (Token.write inner) = some slot →
        (written = [.nameRef slot] ↔ Token.write inner' = Token.write inner) ∧
        (middle = before → written = [.nameRef slot] ∧ last = later) := by
  obtain ⟨inner, middle, begun, ends⟩ := run_level first
  obtain ⟨inner', middle', begun', ends'⟩ := run_level again
  have onward : middle.Fills later := by
    refine Record.Fills.trans ?_ fills
    rcases ends with ⟨_, _, _, _, rfl⟩ | ⟨_, _, rfl⟩
    · exact .refl _
    · exact .insertUnique _ _
  obtain ⟨types, names⟩ := body.run_again begun onward.grows begun'
  refine ⟨inner, middle, inner', middle', begun, begun', ?_, fun fixed => ?_, fun slot found => ?_⟩
  · rcases ends' with ⟨_, _, _, _, rfl⟩ | ⟨_, _, rfl⟩ <;> exact types
  · have names := names fixed
    cases middle'
    cases later
    simp_all
  · have kept := (fills.grows.trans (run_grows body begun')).names.find? found
    refine ⟨⟨fun digit => ?_, fun same => ?_⟩, ?_⟩
    · subst digit
      rcases ends' with ⟨index, _, found', same, _⟩ | ⟨_, same, _⟩
      · cases same
        have here := Table.getElem?_of_find? found'
        exact Option.some.inj (here.symm.trans (Table.getElem?_of_find? kept))
      · cases inner' <;> simp at same
    · cases again.symm.trans (run_level_known begun' (same ▸ kept))
      rfl
    · rintro rfl
      cases begun'.symm.trans (body.run_quiet begun onward)
      cases again.symm.trans (run_level_known begun' kept)
      exact ⟨rfl, rfl⟩

end Script

/-! ## Specializations -/

/-- The script of a level of a name. -/
def levelScript (graph : Graph) (target : Target) (id : SymbolId) : Script :=
  (Plan.within graph target (Encoder.depthBound graph)).levelName graph
    target false id

/-- What is rendered for a specialization, before the look-up in the table. -/
def rendering (graph : Graph) (target : Target) (id : SymbolId) (ident : String)
    (args : List TemplateArg) : Script :=
  .append (.write [.text "?$", .ident ident, .text "@"]) (.append (.write [])
    ((Plan.within graph target (Encoder.depthBound graph)).arguments graph id args))

variable {graph : Graph} {target : Target} {id name template : SymbolId} {symbol : Symbol}
variable {args : List TemplateArg} {text : String}

theorem levelScript_eq (modern : target.isLegacy = false)
    (stored : graph.symbol name = .ok symbol) (special : symbol.sort = .specialization template args) :
    levelScript graph target name = .level false (rendering graph target name symbol.ident args) := by
  have repeated : (Plan.within graph target (Encoder.depthBound graph)).repeatedScope
      target symbol = .write [] := by
    unfold Plan.repeatedScope
    cases symbol.parent <;> simp [modern]
  simp only [levelScript, Plan.levelName, stored, Script.ofExcept, special, modern, repeated]
  rfl

/-- Plain arguments leave nothing in the tables. -/
theorem rendering_fixed (formed : graph.WellFormed) (modern : target.isLegacy = false)
    {ident : String} (plain : ∀ arg,
      .argument name arg ∈ (LinkName.Item.ofArguments name args : List Item) →
        IsPlainArgument graph arg) :
    (rendering graph target name ident args).Fixed := by
  refine ⟨trivial, trivial, Plan.arguments_additive Script.additive_fixed fun part listed => ?_⟩
  obtain ⟨arg, rfl⟩ := LinkName.Item.eq_argument_of_mem listed
  exact Plan.argument_fixed formed modern (plain arg listed) _

/-- However deep in a name a level is called for, its script is the same. -/
theorem follows_level (formed : graph.WellFormed) (held : graph.Holds (.symbol name)) {depth : Nat}
    (deep : 8 * formed.order.rank (.symbol name) ≤ depth) (base : Overlay graph) :
    Follows base
      (levelName target (encoding target depth) false name)
      (levelScript graph target name) := by
  rw [levelScript, Plan.levelName_settled formed formed.order held
    (Encoder.rank_le_depthBound formed.order held), ← Plan.levelName_settled formed formed.order held
    deep]
  exact (followsPlan_within formed target depth).levelName formed false held

/-- A specialization that has been written before is written again. That records no type, and what is
rendered for it records nothing if all levels in it have one text. It is written as the digit of its
slot exactly if what is rendered for it reads as it did. So it does, and nothing is recorded, if
nothing but the level was recorded for it the first time, as for plain arguments. -/
theorem nameFor_level_again (built : graph.Built) (named : nameFor graph target id = .ok text)
    (modern : target.isLegacy = false) (stored : graph.symbol name = .ok symbol)
    (special : symbol.sort = .specialization template args) {before after later : Record}
    (repeats : Script.Repeats (levelScript graph target name) (nameScript graph target id)
      (Record.bounded 10) before after later) :
    let script := rendering graph target name symbol.ident args
    (∀ base : Overlay graph,
      Follows base (encode target id) (nameScript graph target id)) ∧
    (∀ depth (base : Overlay graph), 8 * built.wellFormed.order.rank (.symbol name) ≤ depth →
      Follows base (levelName target (encoding target depth) false name)
        (levelScript graph target name)) ∧
    ∃ inner middle inner' middle' written last,
      script.run before = .ok (inner, middle) ∧ script.run later = .ok (inner', middle') ∧
      (levelScript graph target name).run later = .ok (written, last) ∧
      last.types = later.types ∧
      (script.FixedLevels → middle' = later) ∧
      (∀ slot, after.names.find? (Token.write inner) = some slot →
        (written = [.nameRef slot] ↔ Token.write inner' = Token.write inner) ∧
        (middle = before → written = [.nameRef slot] ∧ last = later)) ∧
      ((∀ arg, .argument name arg ∈ (LinkName.Item.ofArguments name args : List Item) →
        IsPlainArgument graph arg) → middle = before) := by
  intro script
  have formed := built.wellFormed
  obtain ⟨tokens, session, encoded, -⟩ := run_of_nameFor named
  obtain ⟨record, ran, -⟩ := run_of_encode formed encoded
  obtain ⟨⟨wrote, first⟩, fills, written, last, again⟩ := repeats.run ran
  refine ⟨follows_encode formed _ (holds_of_encode encoded), fun depth base deep =>
    follows_level formed (Graph.holds_symbol_iff.mpr ⟨symbol, stored⟩) deep base, ?_⟩
  rw [levelScript_eq modern stored special] at first again ⊢
  obtain ⟨inner, middle, inner', middle', begun, begun', types, fixed, slots⟩ :=
    Script.level_again first fills again
  exact ⟨inner, middle, inner', middle', written, last, begun, begun', again, types, fixed, slots,
    fun plain => ((rendering_fixed formed modern plain).run begun).1⟩

/-- `void keep(Cell<bool>, Cell<bool> *)` and `void move(Cell<bool>, Cell<bool> *, Cell<bool> **)`. -/
def cells : Graph where
  symbols :=
    [{ ident := "app", sort := .moduleScope },
      { ident := "Cell", parent := some ⟨0⟩, sort := .template none },
      { ident := "Cell", parent := some ⟨0⟩, sort := .specialization ⟨1⟩ [.type ⟨1⟩] },
      { ident := "Cell", parent := some ⟨2⟩, sort := .record .struct },
      { ident := "keep", parent := some ⟨0⟩, sort := .function { type := ⟨4⟩ } },
      { ident := "move", parent := some ⟨0⟩, sort := .function { type := ⟨6⟩ } }]
  types :=
    [{ form := .basic .void }, { form := .basic .bool }, { form := .record ⟨3⟩ },
      { form := .pointer ⟨2⟩ },
      { form := .function { result := ⟨0⟩, params := [{ type := ⟨2⟩ }, { type := ⟨3⟩ }] } },
      { form := .pointer ⟨3⟩ },
      { form := .function
          { result := ⟨0⟩, params := [{ type := ⟨2⟩ }, { type := ⟨3⟩ }, { type := ⟨5⟩ }] } }]

theorem cells_built : cells.Built :=
  Graph.built_of_takeAll?
    [.symbol { ident := "app", sort := .moduleScope },
      .symbol { ident := "Cell", parent := some ⟨0⟩, sort := .template none },
      .type { form := .basic .void }, .type { form := .basic .bool },
      .specialization ⟨1⟩ [.type ⟨1⟩],
      .symbol { ident := "Cell", parent := some ⟨2⟩, sort := .record .struct },
      .type { form := .record ⟨3⟩ }, .type { form := .pointer ⟨2⟩ },
      .type
        { form := .function { result := ⟨0⟩, params := [{ type := ⟨2⟩ }, { type := ⟨3⟩ }] } },
      .symbol { ident := "keep", parent := some ⟨0⟩, sort := .function { type := ⟨4⟩ } },
      .type { form := .pointer ⟨3⟩ },
      .type
        { form := .function
            { result := ⟨0⟩, params := [{ type := ⟨2⟩ }, { type := ⟨3⟩ }, { type := ⟨5⟩ }] } },
      .symbol { ident := "move", parent := some ⟨0⟩, sort := .function { type := ⟨6⟩ } }] rfl

/-- The rendering of `Cell<bool>`. -/
def cell : Script :=
  .append (.write [.text "?$", .ident "Cell", .text "@"]) (.append (.write [])
    (.append (.orTypeRef (.basic .bool {}) (.write [.text "_N"])) (.write [])))

def cellTree : TypeTree := .named .record ⟨3⟩ {}

/-- A parameter whose type leads to `Cell<bool>`. -/
def cellParameter (tree : TypeTree) (leads : List String) : Script :=
  .orTypeRef tree (leads.foldr (fun lead => .append (.write (lead.toList.map fun letter =>
    .text (String.singleton letter)))) (.append (.append (.level false cell) (.write []))
      (.write [.text "@"])))

/-- The script of a function, given those of its parameters. -/
def cellFunction (ident : String) (params : List Script) : Script :=
  .append (.write [.text "?"]) (.append
    (.append (.append (.level false (.write [.ident ident])) (.write [])) (.write [.text "@"]))
    (.append (.write [.text "Y"]) (.append (.write [.text "A"])
      (.append (.append (.write []) (.write [.text "X"]))
        (.append (.concat params) (.write [.text "@", .text "Z"]))))))

theorem rendering_cells :
    rendering cells Target.microsoft64 ⟨2⟩ "Cell" [.type ⟨1⟩] = cell := by decide +kernel

theorem levelScript_cells : levelScript cells Target.microsoft64 ⟨2⟩ = .level false cell := by
  decide +kernel

theorem nameScript_keep : nameScript cells Target.microsoft64 ⟨4⟩ =
    cellFunction "keep" [cellParameter cellTree ["U"],
      cellParameter (.layer .pointer cellTree {}) ["PE", "AU"]] := by decide +kernel

theorem nameScript_move : nameScript cells Target.microsoft64 ⟨5⟩ =
    cellFunction "move" [cellParameter cellTree ["U"],
      cellParameter (.layer .pointer cellTree {}) ["PE", "AU"],
      cellParameter (.layer .pointer (.layer .pointer cellTree {}) {}) ["PE", "APE", "AU"]] := by
  decide +kernel

/-- A state of the tables in the names of `cells`. -/
def cellRecord (names : List String) (types : List TypeTree) : Record where
  names := { limit := some 10, entries := names.map String.toList }
  types := { limit := some 10, entries := types }

/-- The third parameter of `move` reads as the second one does. -/
theorem nameFor_level_again_move :
    nameFor cells Target.microsoft64 ⟨5⟩ = .ok "?move@@YAXU?$Cell@_N@@PEAU?$Cell@1@@PEAPEAU2@@Z" ∧
    ∃ before after later,
      Script.Repeats (levelScript cells Target.microsoft64 ⟨2⟩)
        (nameScript cells Target.microsoft64 ⟨5⟩) (Record.bounded 10) before after later ∧
      (levelScript cells Target.microsoft64 ⟨2⟩).run later = .ok ([.nameRef 2], later) := by
  have named : nameFor cells Target.microsoft64 ⟨5⟩ =
      .ok "?move@@YAXU?$Cell@_N@@PEAU?$Cell@1@@PEAPEAU2@@Z" := by decide +kernel
  let pointer : TypeTree := .layer .pointer cellTree {}
  let known : List TypeTree := [cellTree, .basic .bool {}, pointer]
  let before := cellRecord ["move", "?$Cell@_N"] known
  let after := cellRecord ["move", "?$Cell@_N", "?$Cell@1"] known
  let later := cellRecord ["move", "?$Cell@_N", "?$Cell@1"] (known ++ [.layer .pointer pointer {}])
  have repeats : Script.Repeats (levelScript cells Target.microsoft64 ⟨2⟩)
      (nameScript cells Target.microsoft64 ⟨5⟩) (Record.bounded 10) before after later := by
    rw [levelScript_cells, nameScript_move]
    refine .second rfl (.second rfl (.second rfl (.second rfl (.second rfl (.first
      (.second rfl (.apart ?second rfl rfl (.first ?third))))))))
    case second =>
      exact .inType (by decide) (.second rfl (.second rfl (.first (.first (.here _)))))
    case third =>
      exact .inType (by decide) (.second rfl (.second rfl (.second rfl (.first (.first (.here _))))))
  have quiet : (rendering cells Target.microsoft64 ⟨2⟩ "Cell" [.type ⟨1⟩]).run before =
      .ok ([.text "?$", .ident "Cell", .text "@", .typeRef 1], before) := by
    rw [rendering_cells]
    rfl
  obtain ⟨-, -, inner, middle, _, _, written, last, begun, -, again, -, -, digit, -⟩ :=
    nameFor_level_again cells_built named rfl rfl rfl repeats
  cases quiet.symm.trans begun
  obtain ⟨rfl, rfl⟩ := (digit 2 rfl).2 rfl
  exact ⟨named, before, after, later, repeats, again⟩

/-- The second one does not read as the first, because the type of the argument is now known. It is
recorded, although the level has a slot. -/
theorem nameFor_level_keep :
    nameFor cells Target.microsoft64 ⟨4⟩ = .ok "?keep@@YAXU?$Cell@_N@@PEAU?$Cell@1@@@Z" ∧
    ∃ before after later written last,
      Script.Repeats (levelScript cells Target.microsoft64 ⟨2⟩)
        (nameScript cells Target.microsoft64 ⟨4⟩) (Record.bounded 10) before after later ∧
      after.names.find? "?$Cell@_N".toList = some 1 ∧
      (levelScript cells Target.microsoft64 ⟨2⟩).run later = .ok (written, last) ∧
      written ≠ [.nameRef 1] ∧ last ≠ later := by
  let known : List TypeTree := [cellTree, .basic .bool {}]
  let grown : List TypeTree := known ++ [.layer .pointer cellTree {}]
  refine ⟨by decide +kernel, cellRecord ["keep"] [cellTree], cellRecord ["keep", "?$Cell@_N"] known,
    cellRecord ["keep", "?$Cell@_N"] grown,
    [.text "?$", .ident "Cell", .text "@", .typeRef 1, .text "@"],
    cellRecord ["keep", "?$Cell@_N", "?$Cell@1"] grown, ?_, rfl, ?_, by decide, by decide⟩
  · rw [levelScript_cells, nameScript_keep]
    refine .second rfl (.second rfl (.second rfl (.second rfl (.second rfl (.first
      (.apart ?first rfl rfl (.first ?second)))))))
    case first => exact .inType (by decide) (.second rfl (.first (.first (.here _))))
    case second =>
      exact .inType (by decide) (.second rfl (.second rfl (.first (.first (.here _)))))
  · rw [levelScript_cells]
    rfl

end Microsoft

end LinkName
