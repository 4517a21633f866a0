import LinkName.Proofs.Itanium.Instances

/-!
Where slots come from. While a name is written, a type has a slot only if a part of the name that is
the text of this very type has been written before.
-/
namespace LinkName.Itanium

namespace Script

variable {part next script : Script} {key : Key}
variable {table middle before after later last : Table Key} {tokens : List Token}

/-! ## Parts that a run comes to, one after the other -/

/-- What a run comes to is run, between the start and the end of it. -/
theorem Meets.grows (meets : Meets part script table before)
    (ran : script.run table = .ok (tokens, last)) :
    table.Grows before ∧ ∃ written after, part.run before = .ok (written, after) ∧
      after.Grows last := by
  induction meets generalizing last tokens with
  | here table => exact ⟨.refl _, tokens, last, ran, .refl _⟩
  | @first first second table before inside ih =>
      obtain ⟨_, _, _, begun, ended, -⟩ := run_append ran
      obtain ⟨sooner, written, after, wrote, onward⟩ := ih begun
      exact ⟨sooner, written, after, wrote, onward.trans (run_grows second ended)⟩
  | @second first second table middle before tokens begun inside ih =>
      obtain ⟨_, _, _, begun', ended, -⟩ := run_append ran
      cases begun.symm.trans begun'
      obtain ⟨sooner, wrote⟩ := ih ended
      exact ⟨(run_grows first begun).trans sooner, wrote⟩
  | orRef unknown inside ih =>
      rcases run_orRef ran with ⟨slot, found, -, -⟩ | ⟨-, inner⟩
      · cases unknown.symm.trans found
      · exact ih inner
  | @storeThen key body table before inside ih =>
      obtain ⟨sooner, wrote⟩ := ih ran
      exact ⟨(Table.Grows.push table key).trans sooner, wrote⟩
  | @thenStore key body table before inside ih =>
      obtain ⟨middle, inner, rfl⟩ := run_thenStore ran
      obtain ⟨sooner, written, after, wrote, onward⟩ := ih inner
      exact ⟨sooner, written, after, wrote, onward.trans (.push middle key)⟩
  | unlessKnown unknown inside ih =>
      rcases run_unlessKnown ran with ⟨known, -, -⟩ | ⟨-, inner⟩
      · exact absurd known unknown
      · exact ih inner

/-- At any point of a run, what is new in the table are keys of the script. -/
theorem Meets.mem_keys (meets : Meets part script table before) (listed : key ∈ before.entries) :
    key ∈ table.entries ∨ key ∈ script.keys := by
  induction meets with
  | here table => exact .inl listed
  | first inside ih => exact (ih listed).imp_right (List.mem_append_left _)
  | @second first second table middle before tokens begun inside ih =>
      rcases ih listed with sooner | new
      · exact (mem_of_run first begun sooner).imp_right (List.mem_append_left _)
      · exact .inr (List.mem_append_right _ new)
  | orRef unknown inside ih | thenStore inside ih | unlessKnown unknown inside ih =>
      exact (ih listed).imp_right (List.mem_cons_of_mem _)
  | @storeThen other body table before inside ih =>
      rcases ih listed with stored | new
      · exact (Table.mem_push stored).imp_right fun (same : key = other) => same ▸ List.mem_cons_self
      · exact .inr (List.mem_cons_of_mem _ new)

/-- A run of the script writes `part`, which takes the table from `before` to `after`, and comes to
`next` when that is complete, with the table in the state `later`. -/
inductive Leads (part next : Script) :
    Script → Table Key → Table Key → Table Key → Table Key → Prop
  | apart {first second : Script} {table before after middle later : Table Key}
      {written tokens : List Token} (sooner : Meets part first table before)
      (wrote : part.run before = .ok (written, after))
      (begun : first.run table = .ok (tokens, middle)) (meets : Meets next second middle later) :
      Leads part next (.append first second) table before after later
  | first {first second : Script} {table before after later : Table Key}
      (inside : Leads part next first table before after later) :
      Leads part next (.append first second) table before after later
  | second {first second : Script} {table middle before after later : Table Key}
      {tokens : List Token} (begun : first.run table = .ok (tokens, middle))
      (inside : Leads part next second middle before after later) :
      Leads part next (.append first second) table before after later
  | orRef {key : Key} {body : Script} {table before after later : Table Key}
      (unknown : table.find? key = none) (inside : Leads part next body table before after later) :
      Leads part next (.orRef key body) table before after later
  | storeThen {key : Key} {body : Script} {table before after later : Table Key}
      (inside : Leads part next body (table.push key).2 before after later) :
      Leads part next (.storeThen key body) table before after later
  | thenStore {key : Key} {body : Script} {table before after later : Table Key}
      (inside : Leads part next body table before after later) :
      Leads part next (.thenStore key body) table before after later
  | unlessKnown {key : Key} {body : Script} {table before after later : Table Key}
      (unknown : key ∉ table.entries) (inside : Leads part next body table before after later) :
      Leads part next (.unlessKnown key body) table before after later

namespace Leads

theorem meets (leads : Leads part next script table before after later) :
    Meets next script table later := by
  induction leads with
  | apart sooner wrote begun meets => exact .second begun meets
  | first inside ih => exact .first ih
  | second begun inside ih => exact .second begun ih
  | orRef unknown inside ih => exact .orRef unknown ih
  | storeThen inside ih => exact .storeThen ih
  | thenStore inside ih => exact .thenStore ih
  | unlessKnown unknown inside ih => exact .unlessKnown unknown ih

/-- Both parts are run, in this order. -/
theorem run (leads : Leads part next script table before after later)
    (ran : script.run table = .ok (tokens, last)) :
    table.Grows before ∧ (∃ written, part.run before = .ok (written, after)) ∧
      after.Grows later := by
  induction leads generalizing last tokens with
  | apart sooner wrote begun meets =>
      obtain ⟨_, _, _, begun', ended, -⟩ := run_append ran
      cases begun.symm.trans begun'
      obtain ⟨grown, _, _, wrote', onward⟩ := sooner.grows begun
      cases wrote.symm.trans wrote'
      exact ⟨grown, ⟨_, wrote⟩, onward.trans (meets.grows ended).1⟩
  | first inside ih =>
      obtain ⟨_, _, _, begun, -⟩ := run_append ran
      exact ih begun
  | @second first second table middle before after later tokens begun inside ih =>
      obtain ⟨_, _, _, begun', ended, -⟩ := run_append ran
      cases begun.symm.trans begun'
      obtain ⟨grown, wrote⟩ := ih ended
      exact ⟨(run_grows first begun).trans grown, wrote⟩
  | orRef unknown inside ih =>
      rcases run_orRef ran with ⟨slot, found, -, -⟩ | ⟨-, inner⟩
      · cases unknown.symm.trans found
      · exact ih inner
  | @storeThen key body table before after later inside ih =>
      obtain ⟨grown, wrote⟩ := ih ran
      exact ⟨(Table.Grows.push table key).trans grown, wrote⟩
  | thenStore inside ih =>
      obtain ⟨middle, inner, -⟩ := run_thenStore ran
      exact ih inner
  | unlessKnown unknown inside ih =>
      rcases run_unlessKnown ran with ⟨known, -, -⟩ | ⟨-, inner⟩
      · exact absurd known unknown
      · exact ih inner

end Leads

/-! ## Keys that only some parts store -/

/-- Wherever the script stores `key`, it does so in a part that is at home. -/
inductive Homed (home : Script → Prop) (key : Key) : Script → Prop
  | home {part : Script} (owner : home part) : Homed home key part
  | write (tokens : List Token) : Homed home key (.write tokens)
  | refuse (refusal : Refusal) : Homed home key (.refuse refusal)
  | append {first second : Script} (before : Homed home key first) (after : Homed home key second) :
      Homed home key (.append first second)
  | orRef {other : Key} {body : Script} (inside : Homed home key body) :
      Homed home key (.orRef other body)
  | storeThen {other : Key} {body : Script} (apart : other ≠ key) (inside : Homed home key body) :
      Homed home key (.storeThen other body)
  | thenStore {other : Key} {body : Script} (apart : other ≠ key) (inside : Homed home key body) :
      Homed home key (.thenStore other body)
  | unlessKnown {other : Key} {body : Script} (inside : Homed home key body) :
      Homed home key (.unlessKnown other body)

namespace Homed

variable {home : Script → Prop} {other : Key} {body : Script}

theorem additive : Additive (Homed home key) where
  write := write
  refuse := refuse
  append := append

theorem named (apart : other ≠ key) (inside : Homed home key body) :
    Homed home key (.named other body) :=
  (inside.storeThen apart).orRef

theorem compound (apart : other ≠ key) (inside : Homed home key body) :
    Homed home key (.compound other body) :=
  (inside.thenStore apart).orRef

theorem keyed (apart : other ≠ key) : Keyed (Homed home key) other where
  orRef := orRef
  thenStore := thenStore apart
  named tokens := named apart (write tokens)

/-- What is in the table after a run was there before, or the run came to its home. -/
theorem met (homed : Homed home key script) (ran : script.run table = .ok (tokens, last))
    (listed : key ∈ last.entries) :
    key ∈ table.entries ∨ ∃ part before, home part ∧ Meets part script table before := by
  induction homed generalizing table last tokens with
  | @home part owner => exact .inr ⟨part, table, owner, .here _⟩
  | write =>
      cases ran
      exact .inl listed
  | refuse => cases ran
  | append _ _ before after =>
      obtain ⟨_, middle, _, begun, ended, -⟩ := run_append ran
      rcases after ended listed with sooner | ⟨part, place, owner, meets⟩
      · rcases before begun sooner with old | ⟨part, place, owner, meets⟩
        · exact .inl old
        · exact .inr ⟨part, place, owner, .first meets⟩
      · exact .inr ⟨part, place, owner, .second begun meets⟩
  | orRef _ ih =>
      rcases run_orRef ran with ⟨_, -, -, rfl⟩ | ⟨unknown, inner⟩
      · exact .inl listed
      · refine (ih inner listed).imp_right ?_
        rintro ⟨part, place, owner, meets⟩
        exact ⟨part, place, owner, .orRef unknown meets⟩
  | storeThen apart _ ih =>
      rcases ih ran listed with sooner | ⟨part, place, owner, meets⟩
      · exact .inl ((Table.mem_push sooner).resolve_right (Ne.symm apart))
      · exact .inr ⟨part, place, owner, .storeThen meets⟩
  | thenStore apart _ ih =>
      obtain ⟨middle, inner, rfl⟩ := run_thenStore ran
      refine (ih inner ((Table.mem_push listed).resolve_right (Ne.symm apart))).imp_right ?_
      rintro ⟨part, place, owner, meets⟩
      exact ⟨part, place, owner, .thenStore meets⟩
  | unlessKnown _ ih =>
      rcases run_unlessKnown ran with ⟨-, -, rfl⟩ | ⟨unknown, inner⟩
      · exact .inl listed
      · refine (ih inner listed).imp_right ?_
        rintro ⟨part, place, owner, meets⟩
        exact ⟨part, place, owner, .unlessKnown unknown meets⟩

/-- What is in the table when a run comes to `next` was there at the start, or the run has been to its
home, unless `next` itself is inside of it. -/
theorem leads (homed : Homed home key script)
    (outside : ∀ part, home part → ∀ table later, Meets next part table later →
      key ∈ later.entries → key ∈ table.entries)
    (meets : Meets next script table later) (listed : key ∈ later.entries) :
    key ∈ table.entries ∨
      ∃ part before after, home part ∧ Leads part next script table before after later := by
  induction homed generalizing table with
  | home owner => exact .inl (outside _ owner _ _ meets listed)
  | write | refuse =>
      cases meets
      exact .inl listed
  | append early _ before after =>
      cases meets with
      | here => exact .inl listed
      | first inside =>
          refine (before inside).imp_right ?_
          rintro ⟨part, start, stop, owner, leads⟩
          exact ⟨part, start, stop, owner, .first leads⟩
      -- What the second part finds was stored by itself, or by the first, which is complete.
      | second begun inside =>
          rcases after inside with sooner | ⟨part, start, stop, owner, leads⟩
          · refine (early.met begun sooner).imp_right ?_
            rintro ⟨part, start, owner, met⟩
            obtain ⟨-, written, stop, wrote, -⟩ := met.grows begun
            exact ⟨part, start, stop, owner, .apart met wrote begun inside⟩
          · exact .inr ⟨part, start, stop, owner, .second begun leads⟩
  | orRef _ ih =>
      cases meets with
      | here => exact .inl listed
      | orRef unknown inside =>
          refine (ih inside).imp_right ?_
          rintro ⟨part, start, stop, owner, leads⟩
          exact ⟨part, start, stop, owner, .orRef unknown leads⟩
  | storeThen apart _ ih =>
      cases meets with
      | here => exact .inl listed
      | storeThen inside =>
          rcases ih inside with sooner | ⟨part, start, stop, owner, leads⟩
          · exact .inl ((Table.mem_push sooner).resolve_right (Ne.symm apart))
          · exact .inr ⟨part, start, stop, owner, .storeThen leads⟩
  | thenStore _ _ ih =>
      cases meets with
      | here => exact .inl listed
      | thenStore inside =>
          refine (ih inside).imp_right ?_
          rintro ⟨part, start, stop, owner, leads⟩
          exact ⟨part, start, stop, owner, .thenStore leads⟩
  | unlessKnown _ ih =>
      cases meets with
      | here => exact .inl listed
      | unlessKnown unknown inside =>
          refine (ih inside).imp_right ?_
          rintro ⟨part, start, stop, owner, leads⟩
          exact ⟨part, start, stop, owner, .unlessKnown unknown leads⟩

end Homed

end Script

/-! ## Types are stored by their own text -/

namespace Plan

open Script (Homed)

variable {graph : Graph} {machine : Target} {plan : Plan} {tree : TypeTree} {home : Script → Prop}
variable (parts : ∀ part, Homed home (.type tree) (plan part)) (id : SymbolId)
include parts

theorem sourceName_homed : Homed home (.type tree) (plan.sourceName graph id) := by
  refine Homed.additive.ofExcept fun symbol _ => ?_
  split
  · exact .append (.named nofun (.write _)) (.append (.write _)
      (.append (arguments_additive Homed.additive fun part _ => parts part) (.write _)))
  · exact .write _

theorem levelName_homed (level : Level) : Homed home (.type tree) (plan.levelName graph level) := by
  have source : Homed home (.type tree) (plan.sourceName graph level.name) :=
    sourceName_homed parts level.name
  unfold levelName
  split
  · refine .append ?_ source
    unfold enclosing
    split
    · exact (parts _).unlessKnown
    · exact parts _
  · exact source

theorem mention_homed : Homed home (.type tree) (plan.mention graph id) := by
  refine .compound nofun (Homed.additive.ofExcept fun level _ => ?_)
  split
  · exact .append (.write _) (.append (levelName_homed parts level) (.write _))
  · exact levelName_homed parts level

theorem scopeName_homed : Homed home (.type tree) (plan.scopeName graph id) :=
  .named nofun (Homed.additive.ofExcept fun level _ => levelName_homed parts level)

theorem type_homed {other : TypeTree} (apart : other ≠ tree) (place : Place) :
    Homed home (.type tree) (plan.type graph machine other place) := by
  have apart : Key.type other ≠ .type tree := fun same => apart (Key.type.inj same)
  exact type_additive Homed.additive (Homed.keyed apart) (.thenStore nofun)
    (fun _ symbol _ _ => mention_homed parts symbol) fun part _ => parts part

end Plan

variable {graph : Graph} {target : Target} {tree : TypeTree}

/-- The script of a type, as it is at some depth. -/
abbrev typeScript (graph : Graph) (target : Target) (depth : Nat) (tree : TypeTree)
    (place : Place) : Script :=
  Plan.within graph target depth (.type tree place)

/-- The script is one for the type. -/
def IsTypeScript (graph : Graph) (target : Target) (tree : TypeTree) (script : Script) : Prop :=
  ∃ depth place, script = typeScript graph target depth tree place

theorem within_homed (depth : Nat) (item : Item) :
    Script.Homed (IsTypeScript graph target tree) (.type tree)
      (Plan.within graph target depth item) := by
  induction depth generalizing item with
  | zero => exact .refuse _
  | succ depth ih =>
      cases item with
      | scope id => exact Plan.scopeName_homed ih id
      | argument owner arg =>
          exact Plan.argument_additive Script.Homed.additive (fun part _ => ih part)
            fun member _ => Plan.mention_homed ih member
      | type other place =>
          by_cases same : other = tree
          · exact .home ⟨depth + 1, place, same ▸ rfl⟩
          · exact Plan.type_homed ih same place

theorem nameScript_homed (id : SymbolId) :
    Script.Homed (IsTypeScript graph target tree) (.type tree) (nameScript graph target id) :=
  Plan.declaration_additive Script.Homed.additive fun part _ => within_homed _ part

end LinkName.Itanium
