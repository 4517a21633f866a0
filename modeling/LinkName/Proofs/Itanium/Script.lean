import LinkName.Itanium.Encoding
import LinkName.Proofs.Simulation
import LinkName.Proofs.Table

/-!
Itanium names as data. A script says what is written, what is stored in the substitution table and
where the table is consulted. A name is what running its script writes, and what the same script
writes without consulting the table is the name in full.
-/
namespace LinkName.Itanium

/-- What a slot holds, with types as trees. -/
inductive Key where
  | symbol (id : SymbolId)
  | type (tree : TypeTree)
  | unnamed
  deriving DecidableEq

inductive Script where
  | write (tokens : List Token)
  | refuse (refusal : Refusal)
  | append (first second : Script)
  /-- Refers back to `key` if it has a slot. -/
  | orRef (key : Key) (body : Script)
  | storeThen (key : Key) (body : Script)
  | thenStore (key : Key) (body : Script)
  /-- Left out if `key` has a slot. -/
  | unlessKnown (key : Key) (body : Script)

namespace Script

def concat : List Script → Script
  | [] => .write []
  | first :: rest => .append first (concat rest)

def thenStoreIf (condition : Bool) (key : Key) (body : Script) : Script :=
  if condition then .thenStore key body else body

/-- A name that takes its slot before it is written. -/
def named (key : Key) (body : Script) : Script := .orRef key (.storeThen key body)

/-- What takes its slot when it is complete. -/
def compound (key : Key) (body : Script) : Script := .orRef key (.thenStore key body)

def run : Script → Course (Table Key) (List Token)
  | .write tokens => return tokens
  | .refuse refusal => throw refusal
  | .append first second => return (← first.run) ++ (← second.run)
  | .orRef key body => do
    match (← get).find? key with
    | some slot => return [.backRef slot]
    | none => body.run
  | .storeThen key body => do
    modify fun table => (table.push key).2
    body.run
  | .thenStore key body => do
    let tokens ← body.run
    modify fun table => (table.push key).2
    return tokens
  | .unlessKnown key body => do
    if (← get).contains key then return [] else body.run

/-- The script without its table: everything is written in full. -/
def full : Script → Except Refusal (List Token)
  | .write tokens => return tokens
  | .refuse refusal => throw refusal
  | .append first second => return (← first.full) ++ (← second.full)
  | .orRef _ body | .storeThen _ body | .thenStore _ body | .unlessKnown _ body => body.full

/-! ## What a run does, step by step -/

section

variable {first second body : Script} {key : Key} {table last : Table Key} {tokens : List Token}

theorem run_append_eq (first second : Script) (table : Table Key) :
    (append first second).run table = (first.run table >>= fun reached =>
      (fun ending => (reached.1 ++ ending.1, ending.2)) <$> second.run reached.2) := by
  simp only [run, bind, StateT.bind, Except.bind]
  cases first.run table with
  | error refusal => rfl
  | ok reached =>
      dsimp only
      cases second.run reached.2 <;> rfl

theorem run_write_append_eq (tokens : List Token) (body : Script) (table : Table Key) :
    (append (.write tokens) body).run table =
      (fun ending => (tokens ++ ending.1, ending.2)) <$> body.run table :=
  run_append_eq (.write tokens) body table

theorem run_orRef_eq (key : Key) (body : Script) (table : Table Key) :
    (orRef key body).run table =
      (table.find? key).elim (body.run table) fun slot => .ok ([.backRef slot], table) := by
  simp only [run, bind, StateT.bind, get, getThe, MonadStateOf.get, StateT.get, Except.bind, pure,
    Except.pure]
  cases table.find? key <;> rfl

theorem run_storeThen_eq (key : Key) (body : Script) (table : Table Key) :
    (storeThen key body).run table = body.run (table.push key).2 := rfl

theorem run_thenStore_eq (key : Key) (body : Script) (table : Table Key) :
    (thenStore key body).run table =
      (fun ending => (ending.1, (ending.2.push key).2)) <$> body.run table := by
  simp only [run, bind, StateT.bind, Except.bind]
  cases body.run table <;> rfl

theorem run_unlessKnown_eq (key : Key) (body : Script) (table : Table Key) :
    (unlessKnown key body).run table =
      if key ∈ table.entries then .ok ([], table) else body.run table := by
  simp only [run, bind, StateT.bind, get, getThe, MonadStateOf.get, StateT.get, Except.bind, pure,
    Except.pure]
  by_cases known : key ∈ table.entries
  · rw [if_pos (Table.contains_iff.mpr known), if_pos known]
    rfl
  · rw [if_neg fun found => known (Table.contains_iff.mp found), if_neg known]

theorem run_append (ran : (append first second).run table = .ok (tokens, last)) :
    ∃ before middle after, first.run table = .ok (before, middle) ∧
      second.run middle = .ok (after, last) ∧ tokens = before ++ after := by
  obtain ⟨before, middle, begun, rest⟩ := Course.run_bind_eq_ok ran
  obtain ⟨after, final, ended, whole⟩ := Course.run_bind_eq_ok rest
  cases whole
  exact ⟨before, middle, after, begun, ended, rfl⟩

theorem run_append_of {before after : List Token} {middle : Table Key}
    (begun : first.run table = .ok (before, middle)) (ended : second.run middle = .ok (after, last)) :
    (append first second).run table = .ok (before ++ after, last) :=
  (Course.run_bind_of_ok begun).trans (Course.run_bind_of_ok ended)

theorem run_orRef (ran : (orRef key body).run table = .ok (tokens, last)) :
    (∃ slot, table.find? key = some slot ∧ tokens = [.backRef slot] ∧ last = table) ∨
      table.find? key = none ∧ body.run table = .ok (tokens, last) := by
  rw [run_orRef_eq] at ran
  cases found : table.find? key with
  | some slot =>
      rw [found] at ran
      cases ran
      exact .inl ⟨slot, rfl, rfl, rfl⟩
  | none =>
      rw [found] at ran
      exact .inr ⟨rfl, ran⟩

theorem run_unlessKnown (ran : (unlessKnown key body).run table = .ok (tokens, last)) :
    (key ∈ table.entries ∧ tokens = [] ∧ last = table) ∨
      key ∉ table.entries ∧ body.run table = .ok (tokens, last) := by
  rw [run_unlessKnown_eq] at ran
  split at ran
  · next known =>
    cases ran
    exact .inl ⟨known, rfl, rfl⟩
  · next unknown => exact .inr ⟨unknown, ran⟩

theorem run_thenStore (ran : (thenStore key body).run table = .ok (tokens, last)) :
    ∃ middle, body.run table = .ok (tokens, middle) ∧ last = (middle.push key).2 := by
  obtain ⟨written, middle, ended, stored⟩ := Course.run_bind_eq_ok ran
  cases stored
  exact ⟨middle, ended, rfl⟩

theorem run_compound (ran : (compound key body).run table = .ok (tokens, last)) :
    (∃ slot, table.entries[slot]? = some key ∧ tokens = [.backRef slot] ∧ last = table) ∨
      ∃ middle, body.run table = .ok (tokens, middle) ∧ last = (middle.push key).2 := by
  rcases run_orRef ran with ⟨slot, hit, written, unchanged⟩ | ⟨-, inner⟩
  · exact .inl ⟨slot, Table.getElem?_of_find? hit, written, unchanged⟩
  · exact .inr (run_thenStore inner)

theorem run_thenStoreIf {condition : Bool}
    (ran : (thenStoreIf condition key body).run table = .ok (tokens, last)) :
    ∃ middle, body.run table = .ok (tokens, middle) ∧
      last = if condition then (middle.push key).2 else middle := by
  cases condition with
  | true => exact run_thenStore ran
  | false => exact ⟨last, ran, rfl⟩

theorem run_write_append {written : List Token}
    (ran : (append (.write written) body).run table = .ok (tokens, last)) :
    ∃ rest, body.run table = .ok (rest, last) ∧ tokens = written ++ rest := by
  obtain ⟨_, _, rest, begun, ended, whole⟩ := run_append ran
  cases begun
  exact ⟨rest, ended, whole⟩

end

/-! ## Whole runs -/

theorem run_concat {α : Type} (list : List α) (script : α → Script) :
    (concat (list.map script)).run = Course.concat (fun element => (script element).run) list := by
  induction list with
  | nil => rfl
  | cons first rest ih => simp only [List.map_cons, concat, run, ih, Course.concat]

/-- A table that admits nothing leaves the script with what it writes in full. -/
theorem run_of_full_table (script : Script) :
    script.run (Table.bounded 0) = (fun tokens => (tokens, Table.bounded 0)) <$> script.full := by
  have stays (key : Key) : ((Table.bounded 0 : Table Key).push key).2 = Table.bounded 0 := rfl
  induction script with
  | write tokens => rfl
  | refuse refusal => rfl
  | append first second before after =>
      rw [run_append_eq, before, full]
      cases first.full with
      | error refusal => rfl
      | ok tokens =>
          simp only [Functor.map, Except.map, Bind.bind, Except.bind, after]
          cases second.full <;> rfl
  | orRef key body ih | unlessKnown key body ih => exact ih
  | storeThen key body ih => rwa [run_storeThen_eq, stays]
  | thenStore key body ih =>
      rw [run_thenStore_eq, ih, full]
      cases body.full <;> rfl

/-! ## Full texts -/

theorem full_append {first second : Script} {full : List Token}
    (whole : (append first second).full = .ok full) :
    ∃ before after, first.full = .ok before ∧ second.full = .ok after ∧ full = before ++ after := by
  simp only [Script.full, bind, Except.bind] at whole
  cases begun : first.full with
  | error refusal => simp [begun] at whole
  | ok before =>
      cases ended : second.full with
      | error refusal => simp [begun, ended] at whole
      | ok after =>
          simp only [begun, ended] at whole
          cases whole
          exact ⟨before, after, rfl, rfl, rfl⟩

theorem full_write_append {tokens : List Token} {body : Script} {full : List Token}
    (whole : (append (.write tokens) body).full = .ok full) :
    ∃ rest, body.full = .ok rest ∧ full = tokens ++ rest := by
  obtain ⟨before, rest, written, wrote, rfl⟩ := full_append whole
  cases written
  exact ⟨rest, wrote, rfl⟩

theorem full_thenStoreIf (condition : Bool) (key : Key) (body : Script) :
    (thenStoreIf condition key body).full = body.full := by
  cases condition <;> rfl

/-- What the script writes in full; nothing if it is refused. -/
def inFull (script : Script) : List Token := script.full.toOption.getD []

theorem inFull_of_full {script : Script} {full : List Token} (whole : script.full = .ok full) :
    script.inFull = full := by
  rw [inFull, whole]
  rfl

end Script

/-! ## Encoders that follow scripts -/

/-- What a component is with its type as a tree. -/
inductive Reads {graph : Graph} (overlay : Overlay graph) : Component → Key → Prop where
  | symbol (id : SymbolId) : Reads overlay (.symbol id) (.symbol id)
  | type {id : TypeId} {tree : TypeTree} (unfolds : overlay.Unfolds id tree) :
      Reads overlay (.type id) (.type tree)
  | unnamed : Reads overlay .unnamed .unnamed

namespace Reads

variable {graph : Graph} {overlay later : Overlay graph}

theorem mono {component : Component} {key : Key} (reads : Reads overlay component key)
    (grown : overlay ≤ later) : Reads later component key := by
  cases reads with
  | symbol id => exact .symbol id
  | type unfolds => exact .type (unfolds.mono grown)
  | unnamed => exact .unnamed

theorem eq_iff {component component' : Component} {key key' : Key}
    (reads : Reads overlay component key) (reads' : Reads overlay component' key')
    (sound : overlay.Sound) : component = component' ↔ key = key' := by
  cases reads <;> cases reads' <;> simp
  case type.type unfolds _ _ unfolds' => exact unfolds.eq_iff sound unfolds'

/-- Equal keys are found in the same place. -/
theorem idxOf?_eq {components : List Component} {keys : List Key} {component : Component} {key : Key}
    (reads : List.Forall₂ (Reads overlay) components keys) (sought : Reads overlay component key)
    (sound : overlay.Sound) : components.idxOf? component = keys.idxOf? key :=
  Table.idxOf?_congr reads fun _ _ _ reads => reads.eq_iff sought sound

end Reads

variable {graph : Graph}

def reading (graph : Graph) : Reading graph (Table Component) (Table Key) where
  relates overlay table table' :=
    table.limit = table'.limit ∧ List.Forall₂ (Reads overlay) table.entries table'.entries
  mono grown related :=
    ⟨related.1, related.2.imp fun _ _ reads => reads.mono grown⟩

theorem relates_push {overlay : Overlay graph} {table : Table Component} {table' : Table Key}
    {component : Component} {key : Key} (related : (reading graph).relates overlay table table')
    (reads : Reads overlay component key) :
    (reading graph).relates overlay (table.push component).2 (table'.push key).2 := by
  obtain ⟨limits, entries⟩ := related
  have full : table.isFull = table'.isFull := Table.isFull_congr limits entries.length_eq
  refine ⟨by rw [Table.limit_push, Table.limit_push, limits], ?_⟩
  rw [Table.entries_push, Table.entries_push, full]
  split
  · exact entries
  · exact List.rel_append entries (.cons reads .nil)

abbrev Follows (base : Overlay graph) (computation : Encoder graph (List Token)) (script : Script) :
    Prop :=
  LinkName.Follows (reading graph) base computation script.run

namespace Follows

variable {base : Overlay graph} {computation : Encoder graph (List Token)} {script : Script}
variable {component : Component} {key : Key}

theorem write (tokens : List Token) : Follows base (pure tokens) (.write tokens) :=
  LinkName.Follows.pure tokens

theorem refuse (refusal : Refusal) :
    Follows base (throw refusal : Encoder graph (List Token)) (.refuse refusal) :=
  LinkName.Follows.throw refusal

/-- Something after a lead that is known. -/
theorem lead (follows : Follows base computation script) (tokens : List Token) :
    Follows base (do return tokens ++ (← computation)) (.append (.write tokens) script) :=
  follows.map (tokens ++ ·)

theorem orBackRef (reads : Reads base component key) (follows : Follows base computation script) :
    Follows base (orBackRef component computation) (.orRef key script) := by
  intro session table within sound related
  have found := Reads.idxOf?_eq related.2 (reads.mono within) sound
  have left : (Itanium.orBackRef component computation).run session =
      (match session.tables.find? component with
        | some slot => pure [.backRef slot]
        | none => computation : Encoder graph (List Token)).run session := rfl
  have right : (Script.orRef key script).run.run table =
      StateT.run (match table.find? key with
        | some slot => pure [.backRef slot]
        | none => script.run : Course (Table Key) (List Token)) table := rfl
  rw [left, right, Table.find?, Table.find?, found]
  cases table.entries.idxOf? key with
  | none => exact follows session table within sound related
  | some slot => exact LinkName.Follows.pure _ session table within sound related

theorem store_bind {next : Unit → Encoder graph (List Token)} {course : Course (Table Key) (List Token)}
    (reads : Reads base component key)
    (rest : LinkName.Follows (reading graph) base (next ()) course) :
    LinkName.Follows (reading graph) base (store component >>= next)
      (modify (fun table => (table.push key).2) >>= fun _ => course) := by
  intro session table within sound related
  exact rest { session with tables := (session.tables.push component).2 } (table.push key).2 within
    sound (relates_push related (reads.mono within))

theorem storeThen (reads : Reads base component key) (follows : Follows base computation script) :
    Follows base (storeThen component computation) (.storeThen key script) :=
  store_bind reads follows

theorem thenStore (reads : Reads base component key) (follows : Follows base computation script) :
    Follows base (thenStore component computation) (.thenStore key script) :=
  follows.bind fun _ tokens grown => store_bind (reads.mono grown) (.pure tokens)

theorem unlessKnown (reads : Reads base component key) (follows : Follows base computation script) :
    Follows base (isKnown component >>= fun known => if known then pure [] else computation)
      (.unlessKnown key script) := by
  intro session table within sound related
  have found := Reads.idxOf?_eq related.2 (reads.mono within) sound
  have known : session.tables.contains component = table.contains key := by
    rw [Bool.eq_iff_iff, Table.contains_iff, Table.contains_iff, ← not_iff_not,
      ← Table.find?_eq_none_iff, ← Table.find?_eq_none_iff, Table.find?, Table.find?, found]
  have left : (isKnown component >>= fun known => if known then pure [] else computation).run
      session = (if session.tables.contains component then pure [] else computation :
        Encoder graph (List Token)).run session := rfl
  have right : (Script.unlessKnown key script).run.run table =
      StateT.run (if table.contains key then pure [] else script.run :
        Course (Table Key) (List Token)) table := rfl
  rw [left, right, known]
  cases table.contains key with
  | false => exact follows session table within sound related
  | true => exact LinkName.Follows.pure _ session table within sound related

end Follows

end LinkName.Itanium
