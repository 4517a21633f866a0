import LinkName.Proofs.Itanium.Expansion
import LinkName.Proofs.Itanium.Keys

/-!
Scripts that lose nothing. What a run writes comes to the full text of its script once its back
references are spelled out with the table that the name ends with.
-/
namespace LinkName.Itanium.Script

open Standing (walk advance)

variable (spell : Standing → Key → List Token) (enclosed : Key → Bool) (clean : Prop)

/-- Spelled out with the given keys, tokens come to a full text and leave the stack as they should.
If all is clean, they repeat no scope. -/
structure Restored (keys : List Key) (stack after : List Standing) (tokens full : List Token) :
    Prop where
  expanded : expand (fun standing => atSlot keys (spell standing)) stack tokens = full
  walked : walk stack tokens = after
  clear : clean → repeatsScope (atSlot keys enclosed) stack tokens = false

/-- Whatever a run of the script writes restores the full text, with all keys that are stored until
then and any that follow. -/
def Restores (stack after : List Standing) (script : Script) : Prop :=
  ∀ table last tokens full, script.run table = .ok (tokens, last) → script.full = .ok full →
    ∀ keys, last.entries <+: keys → Restored spell enclosed clean keys stack after tokens full

/-- The slot in which a key is found keeps it. -/
theorem getElem?_of_find? {table : Table Key} {key : Key} {slot : Nat} {keys : List Key}
    (found : table.find? key = some slot) (grown : table.entries <+: keys) :
    keys[slot]? = some key := by
  obtain ⟨inside, same, -⟩ := Table.find?_eq_some_iff.mp found
  exact same ▸ List.prefix_iff_getElem?.mp grown slot inside

namespace Restores

variable {spell : Standing → Key → List Token} {enclosed : Key → Bool} {clean : Prop}
variable {stack middle after rest : List Standing} {standing : Standing} {key : Key}
variable {first second third body : Script}

theorem refuse (refusal : Refusal) :
    Restores spell enclosed clean stack after (.refuse refusal) :=
  fun _ _ _ _ ran => by cases ran

theorem write {tokens : List Token} (plain : Plain tokens) (walked : walk stack tokens = after) :
    Restores spell enclosed clean stack after (.write tokens) := by
  intro table last tokens full ran whole keys _
  cases ran
  cases whole
  exact ⟨expand_of_plain plain, walked, fun _ => repeatsScope_of_plain plain⟩

theorem append (before : Restores spell enclosed clean stack middle first)
    (later : Restores spell enclosed clean middle after second) :
    Restores spell enclosed clean stack after (.append first second) := by
  intro table last tokens full ran whole keys grown
  obtain ⟨head, between, tail, begun, ended, rfl⟩ := run_append ran
  obtain ⟨fullHead, fullTail, wholeHead, wholeTail, rfl⟩ := full_append whole
  obtain ⟨expanded, rfl, clear⟩ := before table between head fullHead begun wholeHead keys
    ((run_grows second ended).entries.trans grown)
  have rest := later between last tail fullTail ended wholeTail keys grown
  refine ⟨?_, ?_, fun fine => ?_⟩
  · rw [expand_append, expanded, rest.expanded]
  · rw [← rest.walked, walk, walk, walk, List.foldl_append]
  · rw [repeatsScope_append, clear fine, rest.clear fine, Bool.or_false]

theorem assoc (restores : Restores spell enclosed clean stack after
      (.append (.append first second) third)) :
    Restores spell enclosed clean stack after (.append first (.append second third)) := by
  intro table last tokens full ran whole
  refine restores table last tokens full ?_ ?_
  · obtain ⟨_, _, _, begun, later, rfl⟩ := run_append ran
    obtain ⟨_, _, _, continued, ended, rfl⟩ := run_append later
    rw [← List.append_assoc]
    exact run_append_of (run_append_of begun continued) ended
  · obtain ⟨_, _, begun, later, rfl⟩ := full_append whole
    obtain ⟨_, _, continued, ended, rfl⟩ := full_append later
    simp only [Script.full, bind, Except.bind, begun, continued, ended, pure, Except.pure,
      List.append_assoc]

/-- A hit is spelled out as the body would have been. -/
theorem orRef (earned : ∀ full, body.full = .ok full → spell standing key = full)
    (clear : clean → standing = .following → enclosed key = false)
    (restores : Restores spell enclosed clean (standing :: rest) (standing.next :: rest) body) :
    Restores spell enclosed clean (standing :: rest) (standing.next :: rest) (.orRef key body) := by
  intro table last tokens full ran whole keys grown
  rcases run_orRef ran with ⟨slot, found, rfl, rfl⟩ | ⟨-, ran⟩
  · have stored := getElem?_of_find? found grown
    refine ⟨?_, rfl, fun fine => ?_⟩
    · simp only [expand, List.headD_cons, atSlot_of_getElem? stored, earned full whole,
        List.append_nil]
    · simp only [repeatsScope, List.headD_cons, atSlot_of_getElem? stored, Bool.or_false]
      cases standing with
      | following => simpa using clear fine rfl
      | _ => rfl
  · exact restores table last tokens full ran whole keys grown

theorem storeThen (restores : Restores spell enclosed clean stack after body) :
    Restores spell enclosed clean stack after (.storeThen key body) :=
  fun table => restores (table.push key).2

theorem thenStore (restores : Restores spell enclosed clean stack after body) :
    Restores spell enclosed clean stack after (.thenStore key body) := by
  intro table last tokens full ran whole keys grown
  obtain ⟨middle, inner, rfl⟩ := run_thenStore ran
  exact restores table middle tokens full inner whole keys
    ((Table.entries_prefix_push middle key).trans grown)

theorem thenStoreIf {condition : Bool} (restores : Restores spell enclosed clean stack after body) :
    Restores spell enclosed clean stack after (.thenStoreIf condition key body) := by
  cases condition with
  | true => exact restores.thenStore
  | false => exact restores

theorem concat {scripts : List Script}
    (each : ∀ script ∈ scripts, Restores spell enclosed clean stack stack script) :
    Restores spell enclosed clean stack stack (concat scripts) := by
  induction scripts with
  | nil => exact write (by simp [Plain]) rfl
  | cons first rest ih =>
      exact (each first List.mem_cons_self).append
        (ih fun script listed => each script (List.mem_cons_of_mem _ listed))

theorem ofExcept {α : Type} {found : Except Fault α} {next : α → Script}
    (each : ∀ value, found = .ok value → Restores spell enclosed clean stack after (next value)) :
    Restores spell enclosed clean stack after (.ofExcept found next) := by
  cases found with
  | error fault => exact refuse _
  | ok value => exact each value rfl

/-- A known template is written without its scope, and then at the head. -/
theorem implied {scope : Script} {ident : String}
    (earned : ∀ full, scope.full = .ok full → spell .leading key = full ++ [.source ident])
    (fresh : key ∉ scope.keys)
    (outside : Restores spell enclosed clean (.leading :: rest) (.following :: rest) scope) :
    Restores spell enclosed clean (.leading :: rest) (.following :: rest)
      (.append (.unlessKnown key scope) (.named key (.write [.source ident]))) := by
  intro table last tokens full ran whole keys grown
  obtain ⟨head, between, tail, begun, ended, rfl⟩ := run_append ran
  obtain ⟨fullHead, fullTail, wholeHead, wholeTail, rfl⟩ := full_append whole
  cases wholeTail
  rcases run_unlessKnown begun with ⟨known, rfl, rfl⟩ | ⟨unknown, begun⟩
  · rcases run_orRef ended with ⟨slot, found, rfl, rfl⟩ | ⟨missing, -⟩
    · have stored := getElem?_of_find? found grown
      refine ⟨?_, rfl, fun _ => rfl⟩
      simp only [List.nil_append, expand, List.headD_cons, atSlot_of_getElem? stored,
        earned fullHead wholeHead, List.append_nil]
    · exact absurd known (Table.find?_eq_none_iff.mp missing)
  · have absent : key ∉ between.entries := fun listed =>
      (mem_of_run scope begun listed).elim unknown fresh
    have written : Restores spell enclosed clean (.following :: rest) (.following :: rest)
        (.storeThen key (.write [.source ident])) :=
      storeThen (write (by simp [Plain]) rfl)
    rcases run_orRef ended with ⟨slot, found, -, -⟩ | ⟨-, ended⟩
    · obtain ⟨inside, same, -⟩ := Table.find?_eq_some_iff.mp found
      exact absurd (same ▸ List.getElem_mem inside) absent
    · refine (outside.append written) table last (head ++ tail) _ ?_ whole keys grown
      exact run_append_of begun ended

end Restores

end LinkName.Itanium.Script
