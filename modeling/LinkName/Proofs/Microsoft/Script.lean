import LinkName.Microsoft.Encoding
import LinkName.Proofs.Simulation
import LinkName.Proofs.Table

/-!
Microsoft names as data. A script says what is written, which levels of names and which types of
parameters are recorded, and where the two tables are consulted.
-/
namespace LinkName.Microsoft

/-- The two tables, with types as trees. -/
structure Record where
  names : Table (List Char)
  types : Table TypeTree
  deriving DecidableEq

def Record.bounded (limit : Nat) : Record where
  names := Table.bounded limit
  types := Table.bounded limit

inductive Script where
  | write (tokens : List Token)
  | refuse (refusal : Refusal)
  | append (first second : Script)
  /-- One level of a qualified name, recorded by its text. Where `spelledOut`, it is not referred
  back to. -/
  | level (spelledOut : Bool) (body : Script)
  /-- Refers back to `tree`, or records it before `body`. -/
  | orTypeRef (tree : TypeTree) (body : Script)
  /-- Refers back to `tree`, or records it, only when `body` is complete. -/
  | typeRefAfter (tree : TypeTree) (lead : List Token) (body : Script)
  deriving DecidableEq

namespace Script

def concat : List Script → Script
  | [] => .write []
  | first :: rest => .append first (concat rest)

def findOrInsertName (key : List Char) : Course Record (Option Nat) :=
  modifyGet fun record =>
    let (found, names) := record.names.findOrInsert key
    (found, { record with names })

def recordName (key : List Char) : Course Record Unit :=
  modify fun record => { record with names := record.names.insertUnique key }

def findOrInsertType (tree : TypeTree) : Course Record (Option Nat) :=
  modifyGet fun record =>
    let (found, types) := record.types.findOrInsert tree
    (found, { record with types })

theorem findOrInsertType_eq (tree : TypeTree) (record : Record) :
    findOrInsertType tree record = .ok ((record.types.findOrInsert tree).1,
      { record with types := (record.types.findOrInsert tree).2 }) := rfl

theorem findOrInsertName_eq (key : List Char) (record : Record) :
    findOrInsertName key record = .ok ((record.names.findOrInsert key).1,
      { record with names := (record.names.findOrInsert key).2 }) := rfl

/-- A level whose tokens are known. -/
def writeLevel (spelledOut : Bool) (tokens : List Token) : Course Record (List Token) := do
  if spelledOut then
    recordName (Token.write tokens)
    return tokens ++ [.text "@"]
  else
    match ← findOrInsertName (Token.write tokens) with
    | some index => return [.nameRef index]
    | none => return tokens ++ [.text "@"]

def run : Script → Course Record (List Token)
  | .write tokens => return tokens
  | .refuse refusal => throw refusal
  | .append first second => return (← first.run) ++ (← second.run)
  | .level spelledOut body => do writeLevel spelledOut (← body.run)
  | .orTypeRef tree body => do
    match ← findOrInsertType tree with
    | some index => return [.typeRef index]
    | none => body.run
  | .typeRefAfter tree lead body => do
    let tokens ← body.run
    match ← findOrInsertType tree with
    | some index => return [.typeRef index]
    | none => return lead ++ tokens

theorem run_concat {α : Type} (list : List α) (script : α → Script) :
    (concat (list.map script)).run = Course.concat (fun element => (script element).run) list := by
  induction list with
  | nil => rfl
  | cons first rest ih => simp only [List.map_cons, concat, run, ih, Course.concat]

/-! ## Full texts -/

/-- The script without its tables: everything is spelled out. -/
def full : Script → Except Refusal (List Token)
  | .write tokens => return tokens
  | .refuse refusal => throw refusal
  | .append first second => return (← first.full) ++ (← second.full)
  | .level _ body => return (← body.full) ++ [.text "@"]
  | .orTypeRef _ body => body.full
  | .typeRefAfter _ lead body => return lead ++ (← body.full)

/-- Tables that admit nothing leave the script with what it writes in full. -/
theorem run_of_full_record (script : Script) : script.run (Record.bounded 0) =
    (fun tokens => (tokens, Record.bounded 0)) <$> script.full := by
  induction script with
  | write tokens => rfl
  | refuse refusal => rfl
  | append first second before after =>
      simp only [run, full, bind, StateT.bind, Except.bind, before]
      cases first.full with
      | error refusal => rfl
      | ok tokens =>
          simp only [Functor.map, Except.map, after]
          cases second.full <;> rfl
  | level spelledOut body ih =>
      simp only [run, full, bind, StateT.bind, Except.bind, ih]
      cases body.full with
      | error refusal => rfl
      | ok tokens => cases spelledOut <;> rfl
  | orTypeRef tree body ih => exact ih
  | typeRefAfter tree lead body ih =>
      simp only [run, full, bind, StateT.bind, Except.bind, ih]
      cases body.full <;> rfl

theorem full_append {first second : Script} {whole : List Token}
    (wrote : (append first second).full = .ok whole) :
    ∃ before after, first.full = .ok before ∧ second.full = .ok after ∧ whole = before ++ after := by
  simp only [full, bind, Except.bind] at wrote
  cases begun : first.full with
  | error refusal => simp [begun] at wrote
  | ok before =>
      cases ended : second.full with
      | error refusal => simp [begun, ended] at wrote
      | ok after =>
          simp only [begun, ended] at wrote
          cases wrote
          exact ⟨before, after, rfl, rfl, rfl⟩

theorem full_write_append {tokens whole : List Token} {body : Script}
    (wrote : (append (.write tokens) body).full = .ok whole) :
    ∃ rest, body.full = .ok rest ∧ whole = tokens ++ rest := by
  obtain ⟨before, rest, written, ended, rfl⟩ := full_append wrote
  cases written
  exact ⟨rest, ended, rfl⟩

end Script

/-! ## Encoders that follow scripts -/

variable {graph : Graph}

def reading (graph : Graph) : Reading graph Tables Record where
  relates overlay tables record :=
    tables.names = record.names ∧ tables.types.limit = record.types.limit ∧
      List.Forall₂ overlay.Unfolds tables.types.entries record.types.entries
  mono grown related :=
    ⟨related.1, related.2.1, related.2.2.imp fun _ _ unfolds => unfolds.mono grown⟩

/-- Equal trees are found in the same place. -/
theorem idxOf?_unfolds {overlay : Overlay graph} (sound : overlay.Sound) {ids : List TypeId}
    {trees : List TypeTree} (unfolded : List.Forall₂ overlay.Unfolds ids trees) {id : TypeId}
    {tree : TypeTree} (unfolds : overlay.Unfolds id tree) : ids.idxOf? id = trees.idxOf? tree :=
  Table.idxOf?_congr unfolded fun _ _ _ unfolds' => unfolds'.eq_iff sound unfolds

abbrev Follows (base : Overlay graph) (computation : Encoder graph (List Token)) (script : Script) :
    Prop :=
  LinkName.Follows (reading graph) base computation script.run

namespace Follows

variable {base : Overlay graph} {computation : Encoder graph (List Token)} {script : Script}

theorem write (tokens : List Token) : Follows base (pure tokens) (.write tokens) :=
  LinkName.Follows.pure tokens

theorem refuse (refusal : Refusal) :
    Follows base (throw refusal : Encoder graph (List Token)) (.refuse refusal) :=
  LinkName.Follows.throw refusal

/-- Something after a lead that is known. -/
theorem lead (follows : Follows base computation script) (tokens : List Token) :
    Follows base (do return tokens ++ (← computation)) (.append (.write tokens) script) :=
  follows.map (tokens ++ ·)

theorem findOrInsertName (key : List Char) :
    LinkName.Follows (reading graph) base (findOrInsertName key) (Script.findOrInsertName key) := by
  rintro session ⟨names, types⟩ within sound ⟨rfl, related⟩
  exact .ok le_rfl sound ⟨rfl, related⟩

theorem recordName (key : List Char) :
    LinkName.Follows (reading graph) base (recordName key) (Script.recordName key) := by
  rintro session ⟨names, types⟩ within sound ⟨rfl, related⟩
  exact .ok le_rfl sound ⟨rfl, related⟩

theorem findOrInsertType {id : TypeId} {tree : TypeTree} (unfolds : base.Unfolds id tree) :
    LinkName.Follows (reading graph) base (findOrInsertType id)
      (Script.findOrInsertType tree) := by
  rintro session ⟨names, types⟩ within sound ⟨rfl, limits, entries⟩
  have found := idxOf?_unfolds sound entries (unfolds.mono within)
  have full : session.tables.types.isFull = types.isFull :=
    Table.isFull_congr limits entries.length_eq
  have left : (Microsoft.findOrInsertType id : Encoder graph (Option Nat)).run session =
      .ok (session.tables.types.findOrInsert id).1 { session with
        tables := { session.tables with types := (session.tables.types.findOrInsert id).2 } } := rfl
  have right : (Script.findOrInsertType tree).run ⟨session.tables.names, types⟩ =
      .ok ((types.findOrInsert tree).1, ⟨session.tables.names, (types.findOrInsert tree).2⟩) := rfl
  rw [left, right]
  unfold Table.findOrInsert Table.find?
  rw [found]
  cases types.entries.idxOf? tree with
  | some index => exact .ok le_rfl sound ⟨rfl, limits, entries⟩
  | none =>
      refine .ok le_rfl sound ⟨rfl, ?_, ?_⟩
      · simp only [Table.limit_push, limits]
      · simp only [Table.entries_push, full]
        split
        · exact entries
        · exact List.rel_append entries (.cons (unfolds.mono within) .nil)

theorem orNameRef (spelledOut : Bool) (tokens : List Token) :
    LinkName.Follows (reading graph) base (orNameRef spelledOut tokens)
      (Script.writeLevel spelledOut tokens) := by
  unfold Microsoft.orNameRef Script.writeLevel
  cases spelledOut with
  | true => exact (recordName _).bind fun _ _ _ => .pure _
  | false =>
      refine (findOrInsertName _).bind fun _ found _ => ?_
      cases found <;> exact .pure _

theorem level (spelledOut : Bool) (follows : Follows base computation script) :
    Follows base (computation >>= fun tokens => Microsoft.orNameRef spelledOut tokens)
      (.level spelledOut script) :=
  follows.bind fun _ tokens _ => orNameRef spelledOut tokens

theorem orTypeRef {id : TypeId} {tree : TypeTree} {place : Place} (unfolds : base.Unfolds id tree)
    (follows : Follows base computation script) :
    Follows base (Microsoft.orTypeRef id place computation)
      (if place.indirect || place.returned then script else .orTypeRef tree script) := by
  unfold Microsoft.orTypeRef
  cases place.indirect || place.returned with
  | true => exact follows
  | false =>
      refine (findOrInsertType unfolds).bind fun later found grown => ?_
      cases found with
      | some index => exact .pure _
      | none => exact follows.mono grown

end Follows

end LinkName.Microsoft
