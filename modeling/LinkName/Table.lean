/-!
Tables of what a name has already mentioned. Entries are only ever appended, a look-up finds the
oldest equal entry, and a table with a limit stops growing once it is full: what comes later is
never recorded and never found.
-/
namespace LinkName

structure Table (κ : Type) where
  limit : Option Nat
  entries : List κ := []
  deriving DecidableEq, Repr

namespace Table

variable {κ : Type}

def unbounded : Table κ where
  limit := none

def bounded (limit : Nat) : Table κ where
  limit := some limit

def size (table : Table κ) : Nat := table.entries.length

def isEmpty (table : Table κ) : Bool := table.entries.isEmpty

def isFull (table : Table κ) : Bool :=
  match table.limit with
  | none => false
  | some limit => decide (limit ≤ table.size)

/-- Appends `key` if there is room, and says whether it did. -/
def push (table : Table κ) (key : κ) : Bool × Table κ :=
  if table.isFull then (false, table) else (true, { table with entries := table.entries ++ [key] })

variable [DecidableEq κ]

/-- The index of the oldest entry equal to `key`. -/
def find? (table : Table κ) (key : κ) : Option Nat := table.entries.idxOf? key

def contains (table : Table κ) (key : κ) : Bool := table.entries.contains key

/-- Looks `key` up and records it if it is new. -/
def findOrInsert (table : Table κ) (key : κ) : Option Nat × Table κ :=
  match table.find? key with
  | some index => (some index, table)
  | none => (none, (table.push key).2)

/-- Records `key` unless it is there. -/
def insertUnique (table : Table κ) (key : κ) : Table κ :=
  if table.contains key then table else (table.push key).2

omit [DecidableEq κ] in
theorem entries_push (table : Table κ) (key : κ) :
    (table.push key).2.entries =
      if table.isFull then table.entries else table.entries ++ [key] := by
  unfold push
  split <;> rfl

omit [DecidableEq κ] in
theorem limit_push (table : Table κ) (key : κ) : (table.push key).2.limit = table.limit := by
  unfold push
  split <;> rfl

theorem find?_eq_none_iff {table : Table κ} {key : κ} :
    table.find? key = none ↔ key ∉ table.entries :=
  List.idxOf?_eq_none_iff

theorem find?_eq_some_iff {table : Table κ} {key : κ} {index : Nat} :
    table.find? key = some index ↔
      ∃ inside : index < table.entries.length, table.entries[index] = key ∧
        ∀ (earlier : Nat) (_ : earlier < index), ¬ table.entries[earlier] = key :=
  List.idxOf?_eq_some_iff

theorem contains_iff {table : Table κ} {key : κ} :
    table.contains key = true ↔ key ∈ table.entries :=
  List.contains_iff_mem

end Table

end LinkName
