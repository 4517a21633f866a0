import LinkName.Proofs.Microsoft.Growth

/-!
Texts that are thrown away. A level is rendered before it is looked up, and so is the signature below
a pointer to a function; where the look-up succeeds, a digit takes the place of the text, but the
tables keep what was recorded for it. The reader of the name sees the digit alone.
-/
namespace LinkName.Microsoft.Script

/-- A run of the script from `record` renders `text`, which takes the tables from `before` to `after`,
and throws it away for a digit. The text is that of a pointer to a function, if `what` is one, and else
that of a level. -/
inductive Discards (what : Option TypeTree) (text : Script) : Script → Record → Record → Record → Prop
  | first {first second : Script} {record before after : Record}
      (inside : Discards what text first record before after) :
      Discards what text (.append first second) record before after
  | second {first second : Script} {record middle before after : Record} {tokens : List Token}
      (begun : first.run record = .ok (tokens, middle))
      (inside : Discards what text second middle before after) :
      Discards what text (.append first second) record before after
  | inLevel {spelledOut : Bool} {body : Script} {record before after : Record}
      (inside : Discards what text body record before after) :
      Discards what text (.level spelledOut body) record before after
  | level {record after : Record} {tokens : List Token} (name : what = none)
      (rendered : text.run record = .ok (tokens, after))
      (known : Token.write tokens ∈ after.names.entries) :
      Discards what text (.level false text) record record after
  | inType {tree : TypeTree} {body : Script} {record before after : Record}
      (absent : tree ∉ record.types.entries)
      (inside : Discards what text body { record with types := (record.types.push tree).2 } before
        after) :
      Discards what text (.orTypeRef tree body) record before after
  | inPointer {tree : TypeTree} {lead : List Token} {body : Script} {record before after : Record}
      (inside : Discards what text body record before after) :
      Discards what text (.typeRefAfter tree lead body) record before after
  | pointer {tree : TypeTree} {lead : List Token} {record after : Record} {tokens : List Token}
      (type : what = some tree) (rendered : text.run record = .ok (tokens, after))
      (known : tree ∈ after.types.entries) :
      Discards what text (.typeRefAfter tree lead text) record record after

/-- Nothing that a run of the script throws away leaves anything behind. -/
def Tidy (script : Script) (record : Record) : Prop :=
  ∀ what text before after, Discards what text script record before after → after = before

namespace Tidy

variable {body : Script} {tree : TypeTree} {lead tokens : List Token} {record : Record}

theorem first {first second : Script} (tidy : (append first second).Tidy record) :
    first.Tidy record :=
  fun _ _ _ _ discards => tidy _ _ _ _ (.first discards)

theorem second {first second : Script} {middle : Record} (tidy : (append first second).Tidy record)
    (begun : first.run record = .ok (tokens, middle)) : second.Tidy middle :=
  fun _ _ _ _ discards => tidy _ _ _ _ (.second begun discards)

theorem inLevel {spelledOut : Bool} (tidy : (level spelledOut body).Tidy record) :
    body.Tidy record :=
  fun _ _ _ _ discards => tidy _ _ _ _ (.inLevel discards)

theorem inType (tidy : (orTypeRef tree body).Tidy record) (absent : tree ∉ record.types.entries) :
    body.Tidy { record with types := (record.types.push tree).2 } :=
  fun _ _ _ _ discards => tidy _ _ _ _ (.inType absent discards)

theorem inPointer (tidy : (typeRefAfter tree lead body).Tidy record) : body.Tidy record :=
  fun _ _ _ _ discards => tidy _ _ _ _ (.inPointer discards)

/-- A level that is thrown away. -/
theorem level {after : Record} (tidy : (level false body).Tidy record)
    (rendered : body.run record = .ok (tokens, after)) {index : Nat}
    (found : after.names.find? (Token.write tokens) = some index) : after = record :=
  tidy _ _ _ _ (.level rfl rendered (List.mem_of_getElem? (Table.getElem?_of_find? found)))

/-- A pointer to a function that is thrown away. -/
theorem pointer {after : Record} (tidy : (typeRefAfter tree lead body).Tidy record)
    (rendered : body.run record = .ok (tokens, after)) {index : Nat}
    (found : after.types.find? tree = some index) : after = record :=
  tidy _ _ _ _ (.pointer rfl rendered (List.mem_of_getElem? (Table.getElem?_of_find? found)))

end Tidy

/-- The run of a writer who forgets what the reader of the name can not see: digits refer to the
tables as they were before the text that they replace, and leave them as they were. -/
def seen : Script → Course Record (List Token)
  | .write tokens => return tokens
  | .refuse refusal => throw refusal
  | .append first second => return (← first.seen) ++ (← second.seen)
  | .level spelledOut body => do
    let before ← get
    let tokens ← body.seen
    match if spelledOut then none else before.names.find? (Token.write tokens) with
    | some index =>
      set before
      return [.nameRef index]
    | none =>
      recordName (Token.write tokens)
      return tokens ++ [.text "@"]
  | .orTypeRef tree body => do
    match ← findOrInsertType tree with
    | some index => return [.typeRef index]
    | none => body.seen
  | .typeRefAfter tree lead body => do
    let before ← get
    let tokens ← body.seen
    match before.types.find? tree with
    | some index =>
      set before
      return [.typeRef index]
    | none =>
      modify fun record => { record with types := (record.types.push tree).2 }
      return lead ++ tokens

/-- Where nothing that is thrown away leaves anything behind, the tables are those of the reader. -/
theorem seen_of_run (script : Script) {record last : Record} {tokens : List Token}
    (tidy : script.Tidy record) (ran : script.run record = .ok (tokens, last)) :
    script.seen record = .ok (tokens, last) := by
  induction script generalizing record last tokens with
  | write written => exact ran
  | refuse refusal => cases ran
  | append first second before after =>
      obtain ⟨_, middle, _, begun, ended, rfl⟩ := run_append ran
      have left := before tidy.first begun
      have right := after (tidy.second begun) ended
      simp only [seen, bind, StateT.bind, left, Except.bind, right]
      rfl
  | level spelledOut body ih =>
      obtain ⟨inner, middle, begun, outcome⟩ := run_level ran
      have left := ih tidy.inLevel begun
      simp only [seen, bind, StateT.bind, get, getThe, MonadStateOf.get, StateT.get, pure,
        Except.pure, Except.bind, left]
      rcases outcome with ⟨index, rfl, found, rfl, rfl⟩ | ⟨fresh, rfl, rfl⟩
      · obtain rfl := tidy.level begun found
        simp only [Bool.false_eq_true, if_false, found]
        rfl
      · have missing : (if spelledOut then none else record.names.find? (Token.write inner)) =
            none := by
          cases spelledOut with
          | true => rfl
          | false =>
              exact Table.find?_eq_none_iff.mpr fun known =>
                fresh rfl ((run_grows body begun).names.entries.subset known)
        rw [missing]
        rfl
  | orTypeRef tree body ih =>
      rcases run_orTypeRef ran with ⟨index, found, rfl, rfl⟩ | ⟨absent, inner⟩
      · simp only [seen, bind, StateT.bind, findOrInsertType_eq, Table.findOrInsert, found,
          Except.bind]
        rfl
      · have inside := ih (tidy.inType absent) inner
        simp only [seen, bind, StateT.bind, findOrInsertType_eq, Table.findOrInsert,
          Table.find?_eq_none_iff.mpr absent, Except.bind]
        exact inside
  | typeRefAfter tree lead body ih =>
      obtain ⟨inner, middle, begun, outcome⟩ := run_typeRefAfter ran
      have left := ih tidy.inPointer begun
      simp only [seen, bind, StateT.bind, get, getThe, MonadStateOf.get, StateT.get, pure,
        Except.pure, Except.bind, left]
      rcases outcome with ⟨index, found, rfl, rfl⟩ | ⟨fresh, rfl, rfl⟩
      · obtain rfl := tidy.pointer begun found
        simp only [found]
        rfl
      · have missing : record.types.find? tree = none := Table.find?_eq_none_iff.mpr fun known =>
          fresh ((run_grows body begun).types.entries.subset known)
        rw [missing]
        rfl

/-! ## Scripts that are run again -/

/-- Nothing is recorded or referred back to, so all runs are the same. -/
def Fixed : Script → Prop
  | .write _ | .refuse _ => True
  | .append first second => first.Fixed ∧ second.Fixed
  | .level _ _ | .orTypeRef _ _ | .typeRefAfter _ _ _ => False

/-- Every level has the same text in all runs. -/
def FixedLevels : Script → Prop
  | .write _ | .refuse _ => True
  | .append first second => first.FixedLevels ∧ second.FixedLevels
  | .level _ body => body.Fixed
  | .orTypeRef _ body | .typeRefAfter _ _ body => body.FixedLevels

theorem Fixed.run {script : Script} (fixed : script.Fixed) {record last : Record}
    {tokens : List Token} (ran : script.run record = .ok (tokens, last)) :
    last = record ∧ ∀ other, script.run other = .ok (tokens, other) := by
  induction script generalizing record last tokens with
  | write written =>
      cases ran
      exact ⟨rfl, fun _ => rfl⟩
  | refuse refusal => cases ran
  | append first second before after =>
      obtain ⟨_, middle, _, begun, ended, rfl⟩ := run_append ran
      obtain ⟨rfl, left⟩ := before fixed.1 begun
      obtain ⟨rfl, right⟩ := after fixed.2 ended
      exact ⟨rfl, fun other => run_append_of (left other) (right other)⟩
  | _ => exact fixed.elim

/-- The text of a level is always the same, and so are those of the levels below a pointer. -/
def Unvarying (what : Option TypeTree) (text : Script) : Prop :=
  match what with
  | none => text.Fixed
  | some _ => text.FixedLevels

theorem Fixed.not_discards {script : Script} (fixed : script.Fixed) {what : Option TypeTree}
    {text : Script} {record before after : Record} :
    ¬ Discards what text script record before after := by
  intro discards
  induction discards with
  | first _ ih => exact ih fixed.1
  | second _ _ ih => exact ih fixed.2
  | _ => exact fixed

/-- Where every level of a script has the same text in all runs, so has every level that is thrown
away. -/
theorem Discards.unvarying {what : Option TypeTree} {text script : Script}
    {record before after : Record} (discards : Discards what text script record before after)
    (fixed : script.FixedLevels) : Unvarying what text := by
  induction discards with
  | first _ ih => exact ih fixed.1
  | second _ _ ih => exact ih fixed.2
  | inLevel inside => exact absurd inside (Fixed.not_discards fixed)
  | level name => exact name ▸ fixed
  | inType _ _ ih | inPointer _ ih => exact ih fixed
  | pointer type => exact type ▸ fixed

/-- A run that comes after another of the same script adds no types, and where the texts of levels are
fixed, it adds no levels either. -/
theorem run_again (script : Script) {record last later final : Record} {tokens tokens' : List Token}
    (ran : script.run record = .ok (tokens, last)) (grows : last.Grows later)
    (ran' : script.run later = .ok (tokens', final)) :
    final.types = later.types ∧ (script.FixedLevels → final.names = later.names) := by
  induction script generalizing record last later final tokens tokens' with
  | write written =>
      cases ran'
      exact ⟨rfl, fun _ => rfl⟩
  | refuse refusal => cases ran
  | append first second before after =>
      obtain ⟨_, middle, _, begun, ended, -⟩ := run_append ran
      obtain ⟨_, middle', _, begun', ended', -⟩ := run_append ran'
      have onward := run_grows second ended
      have left := before begun (onward.trans grows) begun'
      have right := after ended (grows.trans (run_grows first begun')) ended'
      exact ⟨right.1.trans left.1, fun fixed => (right.2 fixed.2).trans (left.2 fixed.1)⟩
  | level spelledOut body ih =>
      obtain ⟨inner, middle, begun, outcome⟩ := run_level ran
      obtain ⟨inner', middle', begun', outcome'⟩ := run_level ran'
      have onward : middle.Grows last := by
        rcases outcome with ⟨_, _, _, _, rfl⟩ | ⟨_, _, rfl⟩
        · exact .refl _
        · exact ⟨.insertUnique _ _, .refl _⟩
      have types : final.types = middle'.types := by
        rcases outcome' with ⟨_, _, _, _, rfl⟩ | ⟨_, _, rfl⟩ <;> rfl
      refine ⟨types.trans (ih begun (onward.trans grows) begun').1, fun fixed => ?_⟩
      obtain ⟨rfl, same⟩ := Fixed.run fixed begun
      cases begun'.symm.trans (same later)
      rcases outcome' with ⟨_, _, _, _, rfl⟩ | ⟨absent, _, rfl⟩
      · rfl
      · rcases outcome with ⟨index, plain, found, _, rfl⟩ | ⟨_, _, rfl⟩
        · have known := List.mem_of_getElem? (Table.getElem?_of_find? found)
          exact absurd (grows.names.entries.subset known) (absent plain)
        · exact grows.names.insertUnique_eq_self
  | orTypeRef tree body ih =>
      rcases run_orTypeRef ran' with ⟨_, _, _, rfl⟩ | ⟨absent', inner'⟩
      · exact ⟨rfl, fun _ => rfl⟩
      · rcases run_orTypeRef ran with ⟨index, found, _, rfl⟩ | ⟨absent, inner⟩
        · have known := List.mem_of_getElem? (Table.getElem?_of_find? found)
          exact absurd (grows.types.entries.subset known) absent'
        · have full : (later.types.push tree).2 = later.types :=
            ((run_grows body inner).types.trans grows.types).push_eq_self absent'
          rw [full] at inner'
          exact ih inner grows inner'
  | typeRefAfter tree lead body ih =>
      obtain ⟨_, middle, begun, outcome⟩ := run_typeRefAfter ran
      obtain ⟨_, middle', begun', outcome'⟩ := run_typeRefAfter ran'
      have onward : middle.Grows last := by
        rcases outcome with ⟨_, _, _, rfl⟩ | ⟨_, _, rfl⟩
        · exact .refl _
        · exact ⟨.refl _, .push _ _⟩
      obtain ⟨types, names⟩ := ih begun (onward.trans grows) begun'
      rcases outcome' with ⟨_, _, _, rfl⟩ | ⟨absent, _, rfl⟩
      · exact ⟨types, names⟩
      · rw [types] at absent
        rcases outcome with ⟨index, found, _, rfl⟩ | ⟨_, _, rfl⟩
        · have known := List.mem_of_getElem? (Table.getElem?_of_find? found)
          exact absurd (grows.types.entries.subset known) absent
        · exact ⟨by rw [types, grows.types.push_eq_self absent], names⟩

/-! ## Scripts in which a type is always recorded around the same text -/

/-- Wherever a type is recorded, that is done by the script `home` of the type. -/
def Coherent (home : TypeTree → Script) : Script → Prop
  | .write _ | .refuse _ => True
  | .append first second => first.Coherent home ∧ second.Coherent home
  | .level _ body => body.Coherent home
  | .orTypeRef tree body => home tree = .orTypeRef tree body ∧ body.Coherent home
  | .typeRefAfter tree lead body => home tree = .typeRefAfter tree lead body ∧ body.Coherent home

variable {home : TypeTree → Script}

/-- A type that is recorded by a script is not larger than the script. -/
theorem Coherent.mem_of_run {script : Script} (coherent : script.Coherent home)
    {record last : Record} {tokens : List Token} (ran : script.run record = .ok (tokens, last))
    {tree : TypeTree} (listed : tree ∈ last.types.entries) :
    tree ∈ record.types.entries ∨ sizeOf (home tree) ≤ sizeOf script := by
  induction script generalizing record last tokens with
  | write written =>
      cases ran
      exact .inl listed
  | refuse refusal => cases ran
  | append first second before after =>
      obtain ⟨_, middle, _, begun, ended, -⟩ := run_append ran
      simp only [append.sizeOf_spec]
      rcases after coherent.2 ended listed with sooner | new
      · exact (before coherent.1 begun sooner).imp_right fun small => by omega
      · exact .inr (by omega)
  | level spelledOut body ih =>
      obtain ⟨_, middle, begun, outcome⟩ := run_level ran
      have types : last.types = middle.types := by
        rcases outcome with ⟨_, _, _, _, rfl⟩ | ⟨_, _, rfl⟩ <;> rfl
      simp only [level.sizeOf_spec]
      exact (ih coherent begun (types ▸ listed)).imp_right fun small => by omega
  | orTypeRef other body ih =>
      rcases run_orTypeRef ran with ⟨_, _, _, rfl⟩ | ⟨_, inner⟩
      · exact .inl listed
      · rcases ih coherent.2 inner listed with sooner | small
        · refine (Table.mem_push sooner).imp_right ?_
          rintro rfl
          rw [coherent.1]
        · simp only [orTypeRef.sizeOf_spec]
          exact .inr (by omega)
  | typeRefAfter other lead body ih =>
      obtain ⟨_, middle, begun, outcome⟩ := run_typeRefAfter ran
      have inside (sooner : tree ∈ middle.types.entries) :
          tree ∈ record.types.entries ∨ sizeOf (home tree) ≤ sizeOf (typeRefAfter other lead body) := by
        simp only [typeRefAfter.sizeOf_spec]
        exact (ih coherent.2 begun sooner).imp_right fun small => by omega
      rcases outcome with ⟨_, _, _, rfl⟩ | ⟨_, _, rfl⟩
      · exact inside listed
      · rcases Table.mem_push listed with sooner | rfl
        · exact inside sooner
        · exact .inr (by rw [coherent.1])

/-- The script has been run before. -/
def Done (script : Script) (record : Record) : Prop :=
  ∃ earlier tokens last, script.run earlier = .ok (tokens, last) ∧ last.Grows record

theorem Done.mono {script : Script} {record later : Record} (done : script.Done record)
    (grows : record.Grows later) : script.Done later := by
  obtain ⟨earlier, tokens, last, ran, onward⟩ := done
  exact ⟨earlier, tokens, last, ran, onward.trans grows⟩

/-- The state that a record is always in: what stands below a recorded pointer to a function has been
rendered before. -/
def Rendered (home : TypeTree → Script) (record : Record) : Prop :=
  ∀ tree ∈ record.types.entries, ∀ lead body, home tree = .typeRefAfter tree lead body →
    body.Done record

namespace Rendered

variable {record later last : Record} {script : Script} {tokens : List Token}

/-- Other types may be recorded at any time. -/
theorem push (rendered : Rendered home record) {tree : TypeTree}
    (done : ∀ lead body, home tree = .typeRefAfter tree lead body → body.Done record) :
    Rendered home { record with types := (record.types.push tree).2 } := by
  have grows : record.Grows { record with types := (record.types.push tree).2 } :=
    ⟨.refl _, .push _ _⟩
  intro other listed lead body same
  rcases Table.mem_push listed with sooner | rfl
  · exact (rendered other sooner lead body same).mono grows
  · exact (done lead body same).mono grows

theorem run (rendered : Rendered home record) (coherent : script.Coherent home)
    (ran : script.run record = .ok (tokens, last)) : Rendered home last := by
  induction script generalizing record last tokens with
  | write written =>
      cases ran
      exact rendered
  | refuse refusal => cases ran
  | append first second before after =>
      obtain ⟨_, middle, _, begun, ended, -⟩ := run_append ran
      exact after (before rendered coherent.1 begun) coherent.2 ended
  | level spelledOut body ih =>
      obtain ⟨_, middle, begun, ⟨_, _, _, _, rfl⟩ | ⟨_, _, rfl⟩⟩ := run_level ran
      · exact ih rendered coherent begun
      · intro tree listed lead inner same
        exact (ih rendered coherent begun tree listed lead inner same).mono
          ⟨.insertUnique _ _, .refl _⟩
  | orTypeRef tree body ih =>
      rcases run_orTypeRef ran with ⟨_, _, _, rfl⟩ | ⟨_, inner⟩
      · exact rendered
      · refine ih (rendered.push fun lead other same => ?_) coherent.2 inner
        cases coherent.1.symm.trans same
  | typeRefAfter tree lead body ih =>
      obtain ⟨_, middle, begun, ⟨_, _, _, rfl⟩ | ⟨_, _, rfl⟩⟩ := run_typeRefAfter ran
      · exact ih rendered coherent.2 begun
      · refine (ih rendered coherent.2 begun).push fun lead' other same => ?_
        cases coherent.1.symm.trans same
        exact ⟨record, _, middle, begun, .refl _⟩

end Rendered

/-- A pointer to a function that is thrown away leaves the types as they were, and what has one text
only leaves nothing behind. -/
theorem Discards.clean {what : Option TypeTree} {text script : Script}
    {record before after : Record} (discards : Discards what text script record before after)
    (coherent : script.Coherent home) (rendered : Rendered home record) :
    (what ≠ none → after.types = before.types) ∧ (Unvarying what text → after = before) := by
  induction discards with
  | first _ ih => exact ih coherent.1 rendered
  | second begun _ ih => exact ih coherent.2 (rendered.run coherent.1 begun)
  | inLevel _ ih => exact ih coherent rendered
  | level name ran known =>
      subst name
      exact ⟨fun some => absurd rfl some, fun fixed => (Fixed.run fixed ran).1⟩
  | inType absent inside ih =>
      refine ih coherent.2 (rendered.push fun lead other same => ?_)
      cases coherent.1.symm.trans same
  | inPointer inside ih => exact ih coherent.2 rendered
  | @pointer tree lead record after tokens type ran known =>
      subst type
      have small : ¬ sizeOf (home tree) ≤ sizeOf text := by
        rw [coherent.1]
        simp only [typeRefAfter.sizeOf_spec]
        omega
      have listed := (coherent.2.mem_of_run ran known).resolve_right small
      obtain ⟨earlier, _, last, ran', grows⟩ := rendered tree listed lead text coherent.1
      obtain ⟨types, names⟩ := run_again text ran' grows ran
      refine ⟨fun _ => types, fun fixed => ?_⟩
      cases record
      cases after
      simp only at types names
      rw [types, names fixed]

/-! ## What the reader finds in the text -/

/-- The script writes a text for the type where the type is not known. -/
def Spells (script : Script) (tree : TypeTree) (text : List Char) : Prop :=
  ∃ record tokens last, tree ∉ record.types.entries ∧ script.run record = .ok (tokens, last) ∧
    text = Token.write tokens

/-- Everything that is recorded between two states of a record is spelled out in the text. -/
structure Shows (home : TypeTree → Script) (record last : Record) (text : List Char) : Prop where
  names : ∀ key ∈ last.names.entries, key ∈ record.names.entries ∨ key ++ ['@'] <:+: text
  types : ∀ tree ∈ last.types.entries, tree ∈ record.types.entries ∨
    ∃ spelling, Spells (home tree) tree spelling ∧ spelling <:+: text

namespace Shows

variable {record middle last : Record} {text whole : List Char}

theorem refl (record : Record) (text : List Char) : Shows home record record text :=
  ⟨fun _ => .inl, fun _ => .inl⟩

theorem trans (early : Shows home record middle text) (late : Shows home middle last text) :
    Shows home record last text where
  names key listed := (late.names key listed).elim (early.names key) .inr
  types tree listed := (late.types tree listed).elim (early.types tree) .inr

theorem widen (shown : Shows home record last text) (inside : text <:+: whole) :
    Shows home record last whole where
  names key listed := (shown.names key listed).imp_right fun written => written.trans inside
  types tree listed := (shown.types tree listed).imp_right fun ⟨spelling, spells, written⟩ =>
    ⟨spelling, spells, written.trans inside⟩

/-- A type that is recorded where its own text stands. -/
theorem push {tree : TypeTree} (spelled : Spells (home tree) tree text) :
    Shows home record { record with types := (record.types.push tree).2 } text where
  names key listed := .inl listed
  types other listed := by
    rcases Table.mem_push listed with sooner | rfl
    · exact .inl sooner
    · exact .inr ⟨text, spelled, List.infix_rfl⟩

theorem insertUnique {key : List Char} (written : key ++ ['@'] <:+: text) :
    Shows home record { record with names := record.names.insertUnique key } text where
  names other listed := by
    unfold Table.insertUnique at listed
    split at listed
    · exact .inl listed
    · rcases Table.mem_push listed with sooner | rfl
      · exact .inl sooner
      · exact .inr written
  types tree listed := .inl listed

end Shows

/-- What is recorded is written, unless things that are thrown away leave something behind. -/
theorem shows_of_run (script : Script) {record last : Record} {tokens : List Token}
    (coherent : script.Coherent home) (tidy : script.Tidy record)
    (ran : script.run record = .ok (tokens, last)) :
    Shows home record last (Token.write tokens) := by
  induction script generalizing record last tokens with
  | write written =>
      cases ran
      exact .refl _ _
  | refuse refusal => cases ran
  | append first second before after =>
      obtain ⟨left, middle, right, begun, ended, rfl⟩ := run_append ran
      have early := before coherent.1 tidy.first begun
      have late := after coherent.2 (tidy.second begun) ended
      rw [Token.write_append]
      exact (early.widen (List.prefix_append _ _).isInfix).trans
        (late.widen (List.suffix_append _ _).isInfix)
  | level spelledOut body ih =>
      obtain ⟨inner, middle, begun, outcome⟩ := run_level ran
      have inside := ih coherent tidy.inLevel begun
      rcases outcome with ⟨index, rfl, found, rfl, rfl⟩ | ⟨_, rfl, rfl⟩
      · obtain rfl := tidy.level begun found
        exact .refl _ _
      · rw [Token.write_append]
        exact (inside.widen (List.prefix_append _ _).isInfix).trans (.insertUnique List.infix_rfl)
  | orTypeRef tree body ih =>
      rcases run_orTypeRef ran with ⟨index, found, rfl, rfl⟩ | ⟨absent, inner⟩
      · exact .refl _ _
      · have spelled : Spells (home tree) tree (Token.write tokens) :=
          ⟨record, tokens, last, absent, coherent.1 ▸ ran, rfl⟩
        exact (Shows.push spelled).trans (ih coherent.2 (tidy.inType absent) inner)
  | typeRefAfter tree lead body ih =>
      obtain ⟨inner, middle, begun, outcome⟩ := run_typeRefAfter ran
      have inside := ih coherent.2 tidy.inPointer begun
      rcases outcome with ⟨index, found, rfl, rfl⟩ | ⟨absent, rfl, rfl⟩
      · obtain rfl := tidy.pointer begun found
        exact .refl _ _
      · have fresh : tree ∉ record.types.entries := fun known =>
          absent ((run_grows body begun).types.entries.subset known)
        have spelled : Spells (home tree) tree (Token.write (lead ++ inner)) :=
          ⟨record, _, _, fresh, coherent.1 ▸ ran, rfl⟩
        rw [Token.write_append] at spelled ⊢
        exact (inside.widen (List.suffix_append _ _).isInfix).trans (.push spelled)

end LinkName.Microsoft.Script
