import Mathlib.Data.List.Basic

/-!
Texts that part. Once two texts have different characters after a common start, nothing that is
written later makes them the same.
-/
namespace LinkName

/-- The texts have different characters at one place, after a common start. -/
def Diverge (chars chars' : List Char) : Prop :=
  ∃ shared first rest first' rest', chars = shared ++ first :: rest ∧
    chars' = shared ++ first' :: rest' ∧ first ≠ first'

namespace Diverge

variable {chars chars' : List Char}

theorem of_head {first first' : Char} (differ : first ≠ first') (rest rest' : List Char) :
    Diverge (first :: rest) (first' :: rest') :=
  ⟨[], first, rest, first', rest', rfl, rfl, differ⟩

theorem ne (diverge : Diverge chars chars') : chars ≠ chars' := by
  obtain ⟨shared, first, rest, first', rest', rfl, rfl, differ⟩ := diverge
  intro same
  exact differ (List.cons.inj (List.append_cancel_left same)).1

theorem symm (diverge : Diverge chars chars') : Diverge chars' chars := by
  obtain ⟨shared, first, rest, first', rest', same, same', differ⟩ := diverge
  exact ⟨shared, first', rest', first, rest, same', same, differ.symm⟩

/-- What comes later does not bring texts together again. -/
theorem append (diverge : Diverge chars chars') (more more' : List Char) :
    Diverge (chars ++ more) (chars' ++ more') := by
  obtain ⟨shared, first, rest, first', rest', rfl, rfl, differ⟩ := diverge
  exact ⟨shared, first, rest ++ more, first', rest' ++ more', by simp, by simp, differ⟩

theorem after (lead : List Char) (diverge : Diverge chars chars') :
    Diverge (lead ++ chars) (lead ++ chars') := by
  obtain ⟨shared, first, rest, first', rest', rfl, rfl, differ⟩ := diverge
  exact ⟨lead ++ shared, first, rest, first', rest', by simp, by simp, differ⟩

end Diverge

end LinkName
