import LinkName.Proofs.Graph.Path
import LinkName.Proofs.Itanium.Keys

/-!
Two names made side by side. Tables are in step while their slots hold the same symbols and types
that are one C++ type, so that a back reference means the same in both names.
-/
namespace LinkName.Itanium

namespace Key

def normal : Key → Key
  | .symbol id => .symbol id
  | .type tree => .type tree.normal
  | .unnamed => .unnamed

theorem normal_eq_symbol {key : Key} {id : SymbolId} (same : key.normal = .symbol id) :
    key = .symbol id := by
  cases key with
  | symbol other => exact same
  | type tree | unnamed => cases same

end Key

/-- The slots of two tables stand for the same things. -/
def InStep (table table' : Table Key) : Prop := table.map Key.normal = table'.map Key.normal

namespace InStep

variable {table table' : Table Key}

theorem push (step : InStep table table') {key key' : Key} (same : key.normal = key'.normal) :
    InStep (table.push key).2 (table'.push key').2 := by
  unfold InStep at step ⊢
  rw [← Table.push_map, ← Table.push_map, step, same]

theorem find?_symbol (step : InStep table table') (id : SymbolId) :
    table.find? (.symbol id) = table'.find? (.symbol id) := by
  have alike (table : Table Key) :
      (table.map Key.normal).find? (.symbol id) = table.find? (.symbol id) := by
    have same (key : Key) : (key.normal == .symbol id) = (key == .symbol id) := by
      rw [Bool.eq_iff_iff, beq_iff_eq, beq_iff_eq]
      exact ⟨Key.normal_eq_symbol, congrArg Key.normal⟩
    simp only [Table.find?, Table.map, List.idxOf?, List.findIdx?_map, Function.comp_def, same]
  rw [← alike, step, alike]

theorem mem_symbol_iff (step : InStep table table') (id : SymbolId) :
    .symbol id ∈ table.entries ↔ .symbol id ∈ table'.entries := by
  rw [← not_iff_not, ← Table.find?_eq_none_iff, ← Table.find?_eq_none_iff, step.find?_symbol]

/-- A slot stands for the same thing in both tables. -/
theorem normal_eq (step : InStep table table') {slot : Nat} {key key' : Key}
    (stored : table.entries[slot]? = some key) (stored' : table'.entries[slot]? = some key') :
    key.normal = key'.normal := by
  have entries : table.entries.map Key.normal = table'.entries.map Key.normal :=
    congrArg Table.entries step
  have alike := congrArg (·[slot]?) entries
  simpa [stored, stored'] using alike

/-- A slot that is found in one table stands for the same thing in the other. -/
theorem found (step : InStep table table') {slot : Nat} {key key' : Key}
    (hit : table.find? key = some slot) (hit' : table'.find? key' = some slot) :
    key.normal = key'.normal :=
  step.normal_eq (Table.getElem?_of_find? hit) (Table.getElem?_of_find? hit')

end InStep

namespace Script

/-- The script asks for symbols and stores symbols only. -/
def Symbolic (script : Script) : Prop := ∀ key ∈ script.keys, ∃ id, key = .symbol id

namespace Symbolic

theorem additive : Additive Symbolic where
  write _ _ listed := absurd listed List.not_mem_nil
  refuse _ _ listed := absurd listed List.not_mem_nil
  append before after key listed := (List.mem_append.mp listed).elim (before key) (after key)

variable {body : Script}

theorem named (symbolic : Symbolic body) (id : SymbolId) : Symbolic (.named (.symbol id) body) :=
  List.forall_mem_cons.mpr ⟨⟨id, rfl⟩, List.forall_mem_cons.mpr ⟨⟨id, rfl⟩, symbolic⟩⟩

theorem compound (symbolic : Symbolic body) (id : SymbolId) :
    Symbolic (.compound (.symbol id) body) :=
  List.forall_mem_cons.mpr ⟨⟨id, rfl⟩, List.forall_mem_cons.mpr ⟨⟨id, rfl⟩, symbolic⟩⟩

/-- Scripts that know only symbols write the same with tables that are in step. -/
theorem run_inStep {script : Script} (symbolic : script.Symbolic)
    {table table' last last' : Table Key} {tokens tokens' : List Token} (step : InStep table table')
    (ran : script.run table = .ok (tokens, last)) (ran' : script.run table' = .ok (tokens', last')) :
    tokens = tokens' ∧ InStep last last' := by
  induction script generalizing table table' last last' tokens tokens' with
  | write written =>
      cases ran
      cases ran'
      exact ⟨rfl, step⟩
  | refuse refusal => cases ran
  | append first second before after =>
      obtain ⟨_, _, _, begun, ended, rfl⟩ := run_append ran
      obtain ⟨_, _, _, begun', ended', rfl⟩ := run_append ran'
      obtain ⟨rfl, between⟩ := before (fun key listed => symbolic key (List.mem_append_left _ listed))
        step begun begun'
      obtain ⟨rfl, done⟩ := after (fun key listed => symbolic key (List.mem_append_right _ listed))
        between ended ended'
      exact ⟨rfl, done⟩
  | orRef key body ih =>
      obtain ⟨id, rfl⟩ := symbolic key List.mem_cons_self
      have found := step.find?_symbol id
      rcases run_orRef ran with ⟨slot, hit, rfl, rfl⟩ | ⟨missing, ran⟩
      · rcases run_orRef ran' with ⟨slot', hit', rfl, rfl⟩ | ⟨missing', -⟩
        · obtain rfl : slot = slot' := by simpa [found, hit'] using hit.symm
          exact ⟨rfl, step⟩
        · simp [found, missing'] at hit
      · rcases run_orRef ran' with ⟨slot', hit', -, -⟩ | ⟨-, ran'⟩
        · simp [found, hit'] at missing
        · exact ih (fun key listed => symbolic key (List.mem_cons_of_mem _ listed)) step ran ran'
  | storeThen key body ih =>
      exact ih (fun key listed => symbolic key (List.mem_cons_of_mem _ listed)) (step.push rfl) ran ran'
  | thenStore key body ih =>
      obtain ⟨_, inner, rfl⟩ := run_thenStore ran
      obtain ⟨_, inner', rfl⟩ := run_thenStore ran'
      obtain ⟨rfl, between⟩ := ih (fun key listed => symbolic key (List.mem_cons_of_mem _ listed))
        step inner inner'
      exact ⟨rfl, between.push rfl⟩
  | unlessKnown key body ih =>
      obtain ⟨id, rfl⟩ := symbolic key List.mem_cons_self
      have known := step.mem_symbol_iff id
      rcases run_unlessKnown ran with ⟨listed, rfl, rfl⟩ | ⟨absent, ran⟩
      · rcases run_unlessKnown ran' with ⟨-, rfl, rfl⟩ | ⟨absent', -⟩
        · exact ⟨rfl, step⟩
        · exact absurd (known.mp listed) absent'
      · rcases run_unlessKnown ran' with ⟨listed', -, -⟩ | ⟨-, ran'⟩
        · exact absurd (known.mpr listed') absent
        · exact ih (fun key listed => symbolic key (List.mem_cons_of_mem _ listed)) step ran ran'

end Symbolic

end Script

end LinkName.Itanium
