import Mathlib.Data.List.Infix

/-! Tables of words that are searched from the front for one that the input begins with. -/

namespace Table

variable {κ α : Type} [DecidableEq α] (text : κ → List α)

/-- The first entry that the input begins with, and what is left. -/
def first : List κ → List α → Option (κ × List α)
  | [], _ => none
  | k :: table, input =>
      if (text k).isPrefixOf input then some (k, input.drop (text k).length) else first table input

variable {text} {table before after : List κ} {k : κ} {input rest : List α}

theorem first_inv (found : first text table input = some (k, rest)) :
    input = text k ++ rest ∧ ∃ before after, table = before ++ k :: after ∧ ∀ e ∈ before, ¬text e <+: input := by
  induction table with
  | nil => cases found
  | cons e table ih =>
      unfold first at found
      split at found
      · rename_i here
        obtain ⟨left, rfl⟩ := List.isPrefixOf_iff_prefix.mp here
        cases found
        exact ⟨by simp, [], table, rfl, by simp⟩
      · rename_i other
        obtain ⟨whole, before, after, rfl, none⟩ := ih found
        refine ⟨whole, e :: before, after, rfl, List.forall_mem_cons.mpr ⟨fun here => other ?_, none⟩⟩
        exact List.isPrefixOf_iff_prefix.mpr here

theorem first_append (none : ∀ e ∈ before, ¬text e <+: text k ++ rest) :
    first text (before ++ k :: after) (text k ++ rest) = some (k, rest) := by
  induction before with
  | nil => simp [first]
  | cons e before ih =>
      obtain ⟨other, none⟩ := List.forall_mem_cons.mp none
      rw [List.cons_append, first, if_neg fun here => other (List.isPrefixOf_iff_prefix.mp here)]
      exact ih none

end Table
