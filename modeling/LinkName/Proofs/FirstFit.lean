import LinkName.Proofs.Table
import Mathlib.Data.List.Induction
import Mathlib.Data.Nat.Basic
import Mathlib.Order.Basic

/-!
Tables under any sequence of operations. Entries stay where they are, a look-up finds the oldest of
equal entries, and a full table takes nothing. Where no key is pushed unasked, a table holds the first
distinct keys that were presented to it, as many as its limit allows.
-/
namespace LinkName.Table

variable {κ : Type} [DecidableEq κ]

/-- What can be done with a table. -/
inductive Operation (κ : Type) where
  | find (key : κ)
  | contains (key : κ)
  | push (key : κ)
  | findOrInsert (key : κ)
  | insertUnique (key : κ)
  deriving DecidableEq, Repr

namespace Operation

/-- The table after the operation. -/
def apply (table : Table κ) : Operation κ → Table κ
  | .find _ | .contains _ => table
  | .push key => (table.push key).2
  | .findOrInsert key => (table.findOrInsert key).2
  | .insertUnique key => table.insertUnique key

/-- The key that an operation presents, to be recorded if it is new and there is room. -/
def presented? : Operation κ → Option κ
  | .findOrInsert key | .insertUnique key => some key
  | .find _ | .contains _ | .push _ => none

end Operation

/-- The table that operations lead to from an empty one. -/
def after (limit : Option Nat) (operations : List (Operation κ)) : Table κ :=
  operations.foldl Operation.apply { limit }

/-- The distinct ones among the keys in the order in which they come first, up to the limit. -/
def firstKeys (limit : Option Nat) (keys : List κ) : List κ :=
  match limit with
  | none => keys.eraseDups
  | some most => keys.eraseDups.take most

/-- What a table answers, and when it refuses a key. -/
structure FirstFit (limit : Option Nat) (table : Table κ) : Prop where
  within : ∀ most, limit = some most → table.size ≤ most
  found : ∀ key index, table.find? key = some index ↔
    table.entries[index]? = some key ∧ ∀ earlier < index, table.entries[earlier]? ≠ some key
  contained : ∀ key, table.contains key = true ↔ ∃ index, table.find? key = some index
  stored : ∀ key, (table.push key).1 = true → (table.push key).2.entries = table.entries ++ [key]
  refused : ∀ key, (table.push key).1 = false ↔ limit = some table.size
  unchanged : ∀ key, (table.push key).1 = false → (table.push key).2 = table

variable {table : Table κ} {key : κ}

/-! ## One operation -/

theorem findOrInsert_snd (table : Table κ) (key : κ) :
    (table.findOrInsert key).2 = table.insertUnique key := by
  unfold findOrInsert
  cases found : table.find? key with
  | none => exact (insertUnique_eq_push (find?_eq_none_iff.mp found)).symm
  | some index => exact (insertUnique_eq_self (List.mem_of_getElem? (getElem?_of_find? found))).symm

theorem findOrInsert_fst (table : Table κ) (key : κ) :
    (table.findOrInsert key).1 = table.find? key := by
  unfold findOrInsert
  cases table.find? key <;> rfl

theorem find?_eq_some_iff_getElem? {index : Nat} : table.find? key = some index ↔
    table.entries[index]? = some key ∧ ∀ earlier < index, table.entries[earlier]? ≠ some key := by
  rw [find?_eq_some_iff]
  constructor
  · rintro ⟨inside, same, first⟩
    refine ⟨List.getElem?_eq_some_iff.mpr ⟨inside, same⟩, fun earlier before stands => ?_⟩
    obtain ⟨_, again⟩ := List.getElem?_eq_some_iff.mp stands
    exact first earlier before again
  · rintro ⟨stands, first⟩
    obtain ⟨inside, same⟩ := List.getElem?_eq_some_iff.mp stands
    exact ⟨inside, same, fun earlier before again =>
      first earlier before (List.getElem?_eq_some_iff.mpr ⟨before.trans inside, again⟩)⟩

/-- Where no entry is there twice, a key is found wherever it stands. -/
theorem find?_eq_some_iff_of_nodup {index : Nat} (nodup : table.entries.Nodup) :
    table.find? key = some index ↔ table.entries[index]? = some key := by
  rw [find?_eq_some_iff_getElem?]
  refine and_iff_left_of_imp fun stands earlier before again => ?_
  obtain ⟨inside, same⟩ := List.getElem?_eq_some_iff.mp again
  obtain ⟨inside', same'⟩ := List.getElem?_eq_some_iff.mp stands
  exact before.ne ((nodup.getElem_inj_iff).mp (same.trans same'.symm))

omit [DecidableEq κ] in
theorem isFull_iff : table.isFull = true ↔ ∃ most, table.limit = some most ∧ most ≤ table.size := by
  unfold isFull
  cases table.limit <;> simp

omit [DecidableEq κ] in
theorem push_eq_false_iff : (table.push key).1 = false ↔ table.isFull = true := by
  unfold push
  cases table.isFull <;> simp

theorem grows_apply (table : Table κ) (operation : Operation κ) :
    table.Grows (operation.apply table) := by
  cases operation with
  | find key | contains key => exact .refl table
  | push key => exact .push table key
  | findOrInsert key =>
      rw [Operation.apply, findOrInsert_snd]
      exact .insertUnique table key
  | insertUnique key => exact .insertUnique table key

theorem Bounded.apply {limit : Nat} (bounded : table.Bounded limit) (operation : Operation κ) :
    (operation.apply table).Bounded limit := by
  cases operation with
  | find key | contains key => exact bounded
  | push key => exact bounded.push key
  | findOrInsert key => exact (bounded.findOrInsert key).1
  | insertUnique key => exact bounded.insertUnique key

/-! ## The first distinct keys -/

theorem eraseDups_concat (keys : List κ) (key : κ) :
    (keys ++ [key]).eraseDups = if key ∈ keys then keys.eraseDups else keys.eraseDups ++ [key] := by
  rw [List.eraseDups_append]
  by_cases listed : key ∈ keys <;> simp [List.removeAll, List.eraseDups_cons, listed]

theorem nodup_eraseDups (keys : List κ) : keys.eraseDups.Nodup := by
  induction keys using List.reverseRecOn with
  | nil => exact List.nodup_nil
  | append_singleton keys last ih =>
      rw [eraseDups_concat]
      split
      · exact ih
      · next fresh =>
        rw [← List.concat_eq_append]
        exact ih.concat fun listed => fresh (List.mem_eraseDups.mp listed)

theorem nodup_firstKeys (limit : Option Nat) (keys : List κ) : (firstKeys limit keys).Nodup := by
  cases limit with
  | none => exact nodup_eraseDups keys
  | some most => exact (nodup_eraseDups keys).sublist (List.take_sublist most _)

theorem firstKeys_subset {limit : Option Nat} {keys : List κ} : firstKeys limit keys ⊆ keys := by
  intro key listed
  cases limit with
  | none => exact List.mem_eraseDups.mp listed
  | some most => exact List.mem_eraseDups.mp (List.mem_of_mem_take listed)

/-- All distinct keys are among the first ones if there are no more than the limit allows. -/
theorem firstKeys_of_room {limit : Option Nat} {keys : List κ}
    (room : ∀ most, limit = some most → keys.eraseDups.length ≤ most) :
    firstKeys limit keys = keys.eraseDups := by
  cases limit with
  | none => rfl
  | some most => exact List.take_of_length_le (room most rfl)

/-- One more key changes nothing if it is among the first ones or if there is no room left. -/
theorem firstKeys_concat_known {limit : Option Nat} {keys : List κ}
    (known : key ∈ firstKeys limit keys) :
    firstKeys limit (keys ++ [key]) = firstKeys limit keys := by
  simp only [firstKeys, eraseDups_concat, if_pos (firstKeys_subset known)]

theorem firstKeys_concat_full {most : Nat} {keys : List κ}
    (full : most ≤ (firstKeys (some most) keys).length) :
    firstKeys (some most) (keys ++ [key]) = firstKeys (some most) keys := by
  simp only [firstKeys, List.length_take] at full ⊢
  rw [eraseDups_concat]
  split
  · rfl
  · exact List.take_append_of_le_length (by omega)

theorem firstKeys_concat_room {limit : Option Nat} {keys : List κ}
    (absent : key ∉ firstKeys limit keys)
    (room : ∀ most, limit = some most → (firstKeys limit keys).length < most) :
    firstKeys limit (keys ++ [key]) = firstKeys limit keys ++ [key] := by
  have few : ∀ most, limit = some most → keys.eraseDups.length < most := by
    rintro most rfl
    have less := room most rfl
    simp only [firstKeys, List.length_take] at less
    omega
  have whole := firstKeys_of_room fun most limited => (few most limited).le
  rw [whole] at absent ⊢
  have concat : (keys ++ [key]).eraseDups = keys.eraseDups ++ [key] := by
    rw [eraseDups_concat, if_neg fun listed => absent (List.mem_eraseDups.mpr listed)]
  rw [firstKeys_of_room fun most limited => ?_, concat]
  rw [concat, List.length_append, List.length_singleton]
  exact few most limited

/-- A key that is presented is added to the first ones if it is new and there is room. -/
theorem entries_insertUnique {keys : List κ} (held : table.entries = firstKeys table.limit keys)
    (key : κ) : (table.insertUnique key).entries = firstKeys table.limit (keys ++ [key]) := by
  by_cases listed : key ∈ table.entries
  · rw [insertUnique_eq_self listed, firstKeys_concat_known (held ▸ listed), held]
  · rw [insertUnique_eq_push listed, entries_push]
    cases full : table.isFull with
    | true =>
        obtain ⟨most, limited, reached⟩ := isFull_iff.mp full
        rw [size, held, limited] at reached
        rw [if_pos rfl, held, limited, firstKeys_concat_full reached]
    | false =>
        rw [if_neg Bool.false_ne_true, held]
        refine (firstKeys_concat_room (held ▸ listed) fun most limited => ?_).symm
        by_contra reached
        rw [isFull_iff.mpr ⟨most, limited, by rw [size, held]; omega⟩] at full
        cases full

/-! ## Any number of operations -/

section

variable (limit : Option Nat) (operations more : List (Operation κ))

theorem after_concat (operation : Operation κ) :
    after limit (operations ++ [operation]) = operation.apply (after limit operations) :=
  List.foldl_concat ..

theorem grows_after : (after limit operations).Grows (after limit (operations ++ more)) := by
  induction more using List.reverseRecOn with
  | nil => simpa using Grows.refl _
  | append_singleton more last ih =>
      rw [← List.append_assoc, after_concat]
      exact ih.trans (grows_apply _ last)

theorem limit_after : (after limit operations).limit = limit := (grows_after limit [] operations).limit

theorem bounded_after (most : Nat) : (after (some most) operations).Bounded most := by
  induction operations using List.reverseRecOn with
  | nil => exact .start most
  | append_singleton operations last ih =>
      rw [after_concat]
      exact ih.apply last

variable {limit operations}

/-- Without a key that is pushed unasked, a table holds the first distinct keys presented to it. -/
theorem entries_after (asked : ∀ key, .push key ∉ operations) :
    (after limit operations).entries =
      firstKeys limit (operations.filterMap Operation.presented?) := by
  induction operations using List.reverseRecOn with
  | nil => cases limit <;> simp [after, firstKeys]
  | append_singleton operations last ih =>
      have held := ih fun key listed => asked key (List.mem_append_left _ listed)
      have presents (key : κ) : ((after limit operations).insertUnique key).entries =
          firstKeys limit (operations.filterMap Operation.presented? ++ [key]) := by
        rw [entries_insertUnique (by rw [limit_after]; exact held) key, limit_after]
      rw [after_concat, List.filterMap_append]
      cases last with
      | find key | contains key => exact held.trans (by simp [List.filterMap_cons, Operation.presented?])
      | push key => exact absurd (List.mem_append_right _ List.mem_cons_self) (asked key)
      | findOrInsert key =>
          rw [Operation.apply, findOrInsert_snd]
          exact presents key
      | insertUnique key => exact presents key

theorem firstFit_after (limit : Option Nat) (operations : List (Operation κ)) :
    FirstFit limit (after limit operations) where
  within := by
    rintro most rfl
    exact (bounded_after operations most).size
  found key index := find?_eq_some_iff_getElem?
  contained key := by
    rw [contains_iff, ← Option.isSome_iff_exists, Option.isSome_iff_ne_none, ne_eq,
      find?_eq_none_iff, not_not]
  stored key took := by
    unfold push at took ⊢
    split at took
    · cases took
    · next room => rw [if_neg room]
  refused key := by
    rw [push_eq_false_iff, isFull_iff, limit_after]
    constructor
    · rintro ⟨most, rfl, reached⟩
      exact congrArg some (le_antisymm reached (bounded_after operations most).size)
    · exact fun full => ⟨_, full, le_rfl⟩
  unchanged key refused := by
    rw [push, if_pos (push_eq_false_iff.mp refused)]

end

/-- After any operations on a table, with a limit or without one, entries only follow those that are
there, a look-up finds the oldest of equal entries, and a key is refused just when the table is full.
If no key has been pushed unasked, the entries are the first distinct ones among the keys that were
presented, and one that is presented again is found just where it stands among them. -/
theorem after_firstFit (limit : Option Nat) (operations : List (Operation κ)) :
    (∀ more, (after limit operations).entries <+: (after limit (operations ++ more)).entries) ∧
    FirstFit limit (after limit operations) ∧
    ((∀ key, .push key ∉ operations) →
      (after limit operations).entries =
        firstKeys limit (operations.filterMap Operation.presented?) ∧
      ∀ key index, ((after limit operations).findOrInsert key).1 = some index ↔
        (firstKeys limit (operations.filterMap Operation.presented?))[index]? = some key) := by
  refine ⟨fun more => (grows_after limit operations more).entries,
    firstFit_after limit operations, fun asked => ?_⟩
  have held : (after limit operations).entries =
      firstKeys limit (operations.filterMap Operation.presented?) := entries_after asked
  refine ⟨held, fun key index => ?_⟩
  rw [findOrInsert_fst, find?_eq_some_iff_of_nodup (held ▸ nodup_firstKeys _ _), held]

/-- A table for two keys. `c` and `d` come too late, and `b` is found in its place. -/
theorem after_firstFit_two :
    (after (some 2) [.findOrInsert 'a', .insertUnique 'b', .findOrInsert 'a', .contains 'c',
        .findOrInsert 'c', .insertUnique 'd']).entries = ['a', 'b'] ∧
      ((after (some 2) [.findOrInsert 'a', .insertUnique 'b', .findOrInsert 'a', .contains 'c',
        .findOrInsert 'c', .insertUnique 'd']).findOrInsert 'b').1 = some 1 := by
  obtain ⟨-, -, presented⟩ := after_firstFit (some 2) [.findOrInsert 'a', .insertUnique 'b',
    .findOrInsert 'a', .contains 'c', .findOrInsert 'c', .insertUnique 'd']
  obtain ⟨held, found⟩ := presented (by simp)
  exact ⟨held.trans (by decide), (found 'b' 1).mpr (by decide)⟩

end LinkName.Table
