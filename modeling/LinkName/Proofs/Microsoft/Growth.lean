import LinkName.Proofs.Microsoft.Script

/-!
What a run of a script does to its record. Entries are only ever added, each at most once, and what
could not be added for want of room cannot be added later.
-/
namespace LinkName

namespace Microsoft

/-- A later state of a record. -/
structure Record.Grows (record later : Record) : Prop where
  names : record.names.Grows later.names
  types : record.types.Grows later.types

namespace Record.Grows

variable {first second third : Record}

theorem refl (record : Record) : Grows record record := ⟨.refl _, .refl _⟩

theorem trans (grows : Grows first second) (further : Grows second third) : Grows first third :=
  ⟨grows.names.trans further.names, grows.types.trans further.types⟩

end Record.Grows

namespace Script

variable {first second body : Script} {tree : TypeTree} {record last : Record}
variable {tokens lead : List Token} {spelledOut : Bool}

/-! ## What a run does, step by step -/

theorem run_append (ran : (append first second).run record = .ok (tokens, last)) :
    ∃ before middle after, first.run record = .ok (before, middle) ∧
      second.run middle = .ok (after, last) ∧ tokens = before ++ after := by
  obtain ⟨before, middle, begun, rest⟩ := Course.run_bind_eq_ok ran
  obtain ⟨after, final, ended, whole⟩ := Course.run_bind_eq_ok rest
  cases whole
  exact ⟨before, middle, after, begun, ended, rfl⟩

theorem run_append_of {before after : List Token} {middle : Record}
    (begun : first.run record = .ok (before, middle)) (ended : second.run middle = .ok (after, last)) :
    (append first second).run record = .ok (before ++ after, last) :=
  (Course.run_bind_of_ok begun).trans (Course.run_bind_of_ok ended)

section

variable {index : Nat} {key : List Char}

theorem run_findOrInsertName_known (found : record.names.find? key = some index) :
    (findOrInsertName key).run record = .ok (some index, record) := by
  rw [StateT.run, findOrInsertName_eq, Table.findOrInsert_known found]

theorem run_findOrInsertName_fresh (fresh : record.names.find? key = none) :
    (findOrInsertName key).run record =
      .ok (none, { record with names := (record.names.push key).2 }) := by
  rw [StateT.run, findOrInsertName_eq, Table.findOrInsert_fresh fresh]

theorem run_findOrInsertType_known (found : record.types.find? tree = some index) :
    (findOrInsertType tree).run record = .ok (some index, record) := by
  rw [StateT.run, findOrInsertType_eq, Table.findOrInsert_known found]

theorem run_findOrInsertType_fresh (fresh : record.types.find? tree = none) :
    (findOrInsertType tree).run record =
      .ok (none, { record with types := (record.types.push tree).2 }) := by
  rw [StateT.run, findOrInsertType_eq, Table.findOrInsert_fresh fresh]

end

theorem run_orTypeRef_known {index : Nat} (found : record.types.find? tree = some index) :
    (orTypeRef tree body).run record = .ok ([.typeRef index], record) :=
  Course.run_bind_of_ok (run_findOrInsertType_known found)

theorem run_orTypeRef_fresh (fresh : record.types.find? tree = none) :
    (orTypeRef tree body).run record =
      body.run { record with types := (record.types.push tree).2 } :=
  Course.run_bind_of_ok (run_findOrInsertType_fresh fresh)

theorem run_orTypeRef (ran : (orTypeRef tree body).run record = .ok (tokens, last)) :
    (∃ index, record.types.find? tree = some index ∧ tokens = [.typeRef index] ∧ last = record) ∨
      tree ∉ record.types.entries ∧
        body.run { record with types := (record.types.push tree).2 } = .ok (tokens, last) := by
  cases found : record.types.find? tree with
  | some index =>
      cases (run_orTypeRef_known found).symm.trans ran
      exact .inl ⟨index, rfl, rfl, rfl⟩
  | none => exact .inr ⟨Table.find?_eq_none_iff.mp found, (run_orTypeRef_fresh found).symm.trans ran⟩

theorem run_typeRefAfter_known {middle : Record} (ran : body.run record = .ok (tokens, middle))
    {index : Nat} (found : middle.types.find? tree = some index) :
    (typeRefAfter tree lead body).run record = .ok ([.typeRef index], middle) :=
  (Course.run_bind_of_ok ran).trans (Course.run_bind_of_ok (run_findOrInsertType_known found))

theorem run_typeRefAfter_fresh {middle : Record} (ran : body.run record = .ok (tokens, middle))
    (fresh : middle.types.find? tree = none) :
    (typeRefAfter tree lead body).run record =
      .ok (lead ++ tokens, { middle with types := (middle.types.push tree).2 }) :=
  (Course.run_bind_of_ok ran).trans (Course.run_bind_of_ok (run_findOrInsertType_fresh fresh))

/-- The type is thrown away for a digit, or written and recorded. -/
theorem run_typeRefAfter (ran : (typeRefAfter tree lead body).run record = .ok (tokens, last)) :
    ∃ inner middle, body.run record = .ok (inner, middle) ∧
      ((∃ index, middle.types.find? tree = some index ∧ tokens = [.typeRef index] ∧
          last = middle) ∨
        tree ∉ middle.types.entries ∧ tokens = lead ++ inner ∧
          last = { middle with types := (middle.types.push tree).2 }) := by
  obtain ⟨inner, middle, begun, -⟩ := Course.run_bind_eq_ok ran
  refine ⟨inner, middle, begun, ?_⟩
  cases found : middle.types.find? tree with
  | some index =>
      cases (run_typeRefAfter_known begun found).symm.trans ran
      exact .inl ⟨index, rfl, rfl, rfl⟩
  | none =>
      cases (run_typeRefAfter_fresh begun found).symm.trans ran
      exact .inr ⟨Table.find?_eq_none_iff.mp found, rfl, rfl⟩

theorem run_level_known {middle : Record} (ran : body.run record = .ok (tokens, middle))
    {index : Nat} (found : middle.names.find? (Token.write tokens) = some index) :
    (level false body).run record = .ok ([.nameRef index], middle) :=
  (Course.run_bind_of_ok ran).trans (Course.run_bind_of_ok (run_findOrInsertName_known found))

theorem run_level_fresh {middle : Record} (ran : body.run record = .ok (tokens, middle))
    (fresh : spelledOut = false → Token.write tokens ∉ middle.names.entries) :
    (level spelledOut body).run record = .ok (tokens ++ [.text "@"],
      { middle with names := middle.names.insertUnique (Token.write tokens) }) := by
  cases spelledOut with
  | true => exact Course.run_bind_of_ok ran
  | false =>
      have absent := fresh rfl
      rw [Table.insertUnique_eq_push absent]
      exact (Course.run_bind_of_ok ran).trans
        (Course.run_bind_of_ok (run_findOrInsertName_fresh (Table.find?_eq_none_iff.mpr absent)))

/-- The level is thrown away for a digit, or written and recorded. -/
theorem run_level (ran : (level spelledOut body).run record = .ok (tokens, last)) :
    ∃ inner middle, body.run record = .ok (inner, middle) ∧
      ((∃ index, spelledOut = false ∧ middle.names.find? (Token.write inner) = some index ∧
          tokens = [.nameRef index] ∧ last = middle) ∨
        (spelledOut = false → Token.write inner ∉ middle.names.entries) ∧
          tokens = inner ++ [.text "@"] ∧
          last = { middle with names := middle.names.insertUnique (Token.write inner) }) := by
  obtain ⟨inner, middle, begun, -⟩ := Course.run_bind_eq_ok ran
  refine ⟨inner, middle, begun, ?_⟩
  by_cases fresh : spelledOut = false → Token.write inner ∉ middle.names.entries
  · cases (run_level_fresh begun fresh).symm.trans ran
    exact .inr ⟨fresh, rfl, rfl⟩
  · rw [Classical.not_imp, not_not] at fresh
    obtain ⟨rfl, known⟩ := fresh
    obtain ⟨index, found⟩ := Option.ne_none_iff_exists'.mp
      (mt Table.find?_eq_none_iff.mp (not_not.mpr known))
    cases (run_level_known begun found).symm.trans ran
    exact .inl ⟨index, rfl, found, rfl, rfl⟩

/-! ## Whole runs -/

/-- What holds of every single addition holds of whole runs. -/
theorem run_relates {relation : Record → Record → Prop} (refl : ∀ record, relation record record)
    (trans : ∀ {first second third}, relation first second → relation second third →
      relation first third)
    (name : ∀ record key, relation record { record with names := record.names.insertUnique key })
    (type : ∀ record tree, relation record { record with types := (record.types.push tree).2 })
    (script : Script) {record last : Record} {tokens : List Token}
    (ran : script.run record = .ok (tokens, last)) : relation record last := by
  induction script generalizing record last tokens with
  | write written =>
      cases ran
      exact refl _
  | refuse refusal => cases ran
  | append first second before after =>
      obtain ⟨_, middle, _, begun, ended, -⟩ := run_append ran
      exact trans (before begun) (after ended)
  | level spelledOut body ih =>
      obtain ⟨inner, middle, begun, ⟨_, _, _, _, rfl⟩ | ⟨_, _, rfl⟩⟩ := run_level ran
      · exact ih begun
      · exact trans (ih begun) (name _ _)
  | orTypeRef tree body ih =>
      rcases run_orTypeRef ran with ⟨_, _, _, rfl⟩ | ⟨_, inner⟩
      · exact refl _
      · exact trans (type _ _) (ih inner)
  | typeRefAfter tree lead body ih =>
      obtain ⟨inner, middle, begun, ⟨_, _, _, rfl⟩ | ⟨_, _, rfl⟩⟩ := run_typeRefAfter ran
      · exact ih begun
      · exact trans (ih begun) (type _ _)

theorem run_grows (script : Script) {record last : Record} {tokens : List Token}
    (ran : script.run record = .ok (tokens, last)) : record.Grows last :=
  run_relates .refl .trans (fun _ _ => ⟨.insertUnique _ _, .refl _⟩)
    (fun _ _ => ⟨.refl _, .push _ _⟩) script ran

/-- No type is recorded twice. -/
theorem run_nodup (script : Script) {record last : Record} {tokens : List Token}
    (ran : script.run record = .ok (tokens, last)) (nodup : record.types.entries.Nodup) :
    last.types.entries.Nodup := by
  induction script generalizing record last tokens with
  | write written =>
      cases ran
      exact nodup
  | refuse refusal => cases ran
  | append first second before after =>
      obtain ⟨_, middle, _, begun, ended, -⟩ := run_append ran
      exact after ended (before begun nodup)
  | level spelledOut body ih =>
      obtain ⟨inner, middle, begun, ⟨_, _, _, _, rfl⟩ | ⟨_, _, rfl⟩⟩ := run_level ran
      · exact ih begun nodup
      · have kept := ih begun nodup
        exact kept
  | orTypeRef tree body ih =>
      rcases run_orTypeRef ran with ⟨_, _, _, rfl⟩ | ⟨absent, inner⟩
      · exact nodup
      · exact ih inner (Table.nodup_push nodup absent)
  | typeRefAfter tree lead body ih =>
      obtain ⟨inner, middle, begun, ⟨_, _, _, rfl⟩ | ⟨absent, _, rfl⟩⟩ := run_typeRefAfter ran
      · exact ih begun nodup
      · exact Table.nodup_push (ih begun nodup) absent

end Script

end Microsoft

end LinkName
