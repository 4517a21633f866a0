import LinkName.Table
import Mathlib.Data.List.Basic
import Mathlib.Data.List.Forall2
import Mathlib.Data.List.Nodup

/-!
Tables that grow, tables that keep to a limit, and tables whose keys are replaced by others. As long
as different keys stay different, the same things are found in the same places.
-/
namespace LinkName.Table

variable {κ κ' : Type}

theorem isFull_congr {table : Table κ} {table' : Table κ'} (limits : table.limit = table'.limit)
    (sizes : table.size = table'.size) : table.isFull = table'.isFull := by
  unfold isFull
  rw [limits, sizes]

theorem mem_push {table : Table κ} {key other : κ} (listed : other ∈ (table.push key).2.entries) :
    other ∈ table.entries ∨ other = key := by
  rw [entries_push] at listed
  split at listed
  · exact .inl listed
  · simpa using listed

theorem entries_prefix_push (table : Table κ) (key : κ) :
    table.entries <+: (table.push key).2.entries := by
  rw [entries_push]
  split
  · exact List.prefix_rfl
  · exact List.prefix_append _ _

/-- A table without a limit takes every key. -/
theorem entries_push_of_unlimited {table : Table κ} (unlimited : table.limit = none) (key : κ) :
    (table.push key).2.entries = table.entries ++ [key] := by
  rw [entries_push, isFull, unlimited]
  rfl

theorem nodup_push {table : Table κ} {key : κ} (nodup : table.entries.Nodup)
    (absent : key ∉ table.entries) : (table.push key).2.entries.Nodup := by
  rw [entries_push]
  split
  · exact nodup
  · rw [← List.concat_eq_append]
    exact nodup.concat absent

/-- What is in one list has a counterpart in a list that goes along with it. -/
theorem exists_of_forall₂ {relates : κ → κ' → Prop} {keys : List κ} {keys' : List κ'}
    (related : List.Forall₂ relates keys keys') {key' : κ'} (listed : key' ∈ keys') :
    ∃ key ∈ keys, relates key key' := by
  induction related with
  | nil => cases listed
  | cons head _ ih =>
      rcases List.mem_cons.mp listed with rfl | listed
      · exact ⟨_, List.mem_cons_self, head⟩
      · obtain ⟨key, known, fits⟩ := ih listed
        exact ⟨key, List.mem_cons_of_mem _ known, fits⟩

/-- Keys that go along with each other are found in the same place. -/
theorem idxOf?_congr [DecidableEq κ] [DecidableEq κ'] {relates : κ → κ' → Prop} {keys : List κ}
    {keys' : List κ'} {key : κ} {key' : κ'} (related : List.Forall₂ relates keys keys')
    (same : ∀ other, ∀ other' ∈ keys', relates other other' → (other = key ↔ other' = key')) :
    keys.idxOf? key = keys'.idxOf? key' := by
  induction related with
  | nil => rfl
  | @cons first first' rest rest' head _ ih =>
      have alike : (first == key) = (first' == key') := by
        simpa only [beq_eq_beq] using same first first' List.mem_cons_self head
      have tail := ih fun other other' listed => same other other' (List.mem_cons_of_mem _ listed)
      simp only [List.idxOf?, List.findIdx?_cons, alike] at tail ⊢
      rw [tail]

/-- The table with `change` applied to its keys. -/
def map (change : κ → κ') (table : Table κ) : Table κ' where
  limit := table.limit
  entries := table.entries.map change

variable (change : κ → κ')

theorem push_map (table : Table κ) (key : κ) :
    ((table.map change).push (change key)).2 = (table.push key).2.map change := by
  have full : (table.map change).isFull = table.isFull :=
    isFull_congr rfl (List.length_map change)
  unfold push
  rw [full]
  split
  · rfl
  · simp [map]

theorem getElem?_of_find? [DecidableEq κ] {table : Table κ} {key : κ} {slot : Nat}
    (found : table.find? key = some slot) : table.entries[slot]? = some key := by
  obtain ⟨inside, same, -⟩ := find?_eq_some_iff.mp found
  exact List.getElem?_eq_some_iff.mpr ⟨inside, same⟩

/-- What has been found is found in the same place as long as entries are only added. -/
theorem find?_of_prefix [DecidableEq κ] {table last : Table κ} {key : κ} {slot : Nat}
    (grown : table.entries <+: last.entries) (found : table.find? key = some slot) :
    last.find? key = some slot := by
  obtain ⟨rest, same⟩ := grown
  unfold find? List.idxOf? at found ⊢
  rw [← same, List.findIdx?_append, found]
  rfl

section

variable [DecidableEq κ] {table : Table κ} {key : κ}

theorem findOrInsert_known {index : Nat} (found : table.find? key = some index) :
    table.findOrInsert key = (some index, table) := by
  rw [findOrInsert, found]

theorem findOrInsert_fresh (fresh : table.find? key = none) :
    table.findOrInsert key = (none, (table.push key).2) := by
  rw [findOrInsert, fresh]

end

/-- A later state of a table. -/
structure Grows (table later : Table κ) : Prop where
  limit : later.limit = table.limit
  entries : table.entries <+: later.entries

namespace Grows

variable {first second third : Table κ}

theorem refl (table : Table κ) : Grows table table := ⟨rfl, List.prefix_rfl⟩

theorem trans (grows : Grows first second) (further : Grows second third) : Grows first third :=
  ⟨further.limit.trans grows.limit, grows.entries.trans further.entries⟩

theorem push (table : Table κ) (key : κ) : Grows table (table.push key).2 :=
  ⟨table.limit_push key, table.entries_prefix_push key⟩

theorem isFull (grows : Grows first second) (full : first.isFull = true) :
    second.isFull = true := by
  unfold Table.isFull at full ⊢
  rw [grows.limit]
  cases limit : first.limit with
  | none => simp [limit] at full
  | some bound =>
      simp only [limit, decide_eq_true_eq] at full ⊢
      exact Nat.le_trans full grows.entries.length_le

/-- What has not been added was not added for want of room. -/
theorem push_eq_self {key : κ} (grows : Grows (first.push key).2 second)
    (absent : key ∉ second.entries) : (second.push key).2 = second := by
  cases full : first.isFull with
  | true =>
      have same : (first.push key).2 = first := by simp [Table.push, full]
      rw [same] at grows
      simp [Table.push, grows.isFull full]
  | false =>
      refine absurd (grows.entries.subset ?_) absent
      simp [Table.entries_push, full]

/-- What has been found is found in the same place later on. -/
theorem find? [DecidableEq κ] {key : κ} {index : Nat} (grows : Grows first second)
    (found : first.find? key = some index) : second.find? key = some index :=
  find?_of_prefix grows.entries found

end Grows

section

variable [DecidableEq κ]

theorem insertUnique_eq_self {table : Table κ} {key : κ} (listed : key ∈ table.entries) :
    table.insertUnique key = table :=
  if_pos (contains_iff.mpr listed)

theorem insertUnique_eq_push {table : Table κ} {key : κ} (absent : key ∉ table.entries) :
    table.insertUnique key = (table.push key).2 :=
  if_neg fun known => absent (contains_iff.mp known)

theorem Grows.insertUnique (table : Table κ) (key : κ) : table.Grows (table.insertUnique key) := by
  unfold Table.insertUnique
  split
  · exact .refl _
  · exact .push _ _

theorem Grows.insertUnique_eq_self {first second : Table κ} {key : κ}
    (grows : (first.insertUnique key).Grows second) : second.insertUnique key = second := by
  by_cases listed : key ∈ second.entries
  · exact Table.insertUnique_eq_self listed
  · have fresh : key ∉ first.entries := fun known =>
      listed ((Grows.insertUnique first key).trans grows |>.entries.subset known)
    rw [insertUnique_eq_push fresh] at grows
    rw [insertUnique_eq_push listed, grows.push_eq_self listed]

end

/-- The table keeps to its limit. -/
structure Bounded (limit : Nat) (table : Table κ) : Prop where
  fixed : table.limit = some limit
  size : table.size ≤ limit

namespace Bounded

variable {limit : Nat} {table : Table κ}

theorem start (limit : Nat) : (Table.bounded limit : Table κ).Bounded limit := ⟨rfl, Nat.zero_le _⟩

theorem push (bounded : table.Bounded limit) (key : κ) : (table.push key).2.Bounded limit := by
  refine ⟨(table.limit_push key).trans bounded.fixed, ?_⟩
  have kept := bounded.size
  unfold Table.size at kept ⊢
  rw [Table.entries_push]
  split
  · exact kept
  · next room =>
    have less : ¬ limit ≤ table.entries.length := fun full =>
      room (by rw [Table.isFull, bounded.fixed]; exact decide_eq_true full)
    rw [List.length_append, List.length_singleton]
    exact Nat.lt_of_not_le less

variable [DecidableEq κ]

theorem insertUnique (bounded : table.Bounded limit) (key : κ) :
    (table.insertUnique key).Bounded limit := by
  unfold Table.insertUnique
  split
  · exact bounded
  · exact bounded.push key

theorem findOrInsert (bounded : table.Bounded limit) (key : κ) :
    (table.findOrInsert key).2.Bounded limit ∧
      ∀ index ∈ (table.findOrInsert key).1, index < limit := by
  unfold Table.findOrInsert
  cases found : table.find? key with
  | none => exact ⟨bounded.push key, by simp⟩
  | some index =>
      obtain ⟨inside, -, -⟩ := Table.find?_eq_some_iff.mp found
      exact ⟨bounded, by simpa using Nat.lt_of_lt_of_le inside bounded.size⟩

end Bounded

variable [DecidableEq κ] [DecidableEq κ'] {change : κ → κ'}

theorem find?_map (injective : Function.Injective change) (table : Table κ) (key : κ) :
    (table.map change).find? (change key) = table.find? key := by
  have same (other : κ) : (change other == change key) = (other == key) := by
    simpa only [beq_eq_beq] using injective.eq_iff
  simp only [find?, map, List.idxOf?, List.findIdx?_map, Function.comp_def, same]

end LinkName.Table
