import Tase.Cpp.Bits

/-! The positions of the lowest and the highest set bit of a word. -/

namespace Cpp

variable {n : Nat} {x : BitVec n} {k s : Nat}

def IsLowest (x : BitVec n) (k : Nat) : Prop := x.getLsbD k = true ∧ ∀ j < k, x.getLsbD j = false

def IsHighest (x : BitVec n) (k : Nat) : Prop := x.getLsbD k = true ∧ ∀ j > k, x.getLsbD j = false

theorem exists_bit (nonzero : x ≠ 0) : ∃ k < n, x.getLsbD k = true := by
  by_contra none
  refine nonzero (BitVec.eq_of_getLsbD_eq fun k inside => ?_)
  have clear : ¬x.getLsbD k = true := fun set => none ⟨k, inside, set⟩
  simpa using clear

theorem exists_lowest (nonzero : x ≠ 0) : ∃ k < n, IsLowest x k := by
  obtain ⟨k, inside, set⟩ := exists_bit nonzero
  induction k using Nat.strongRecOn with
  | ind k ih =>
      by_cases lower : ∃ j < k, x.getLsbD j = true
      · obtain ⟨j, below, found⟩ := lower
        exact ih j below (by omega) found
      · refine ⟨k, inside, set, fun j below => ?_⟩
        simpa using fun found => lower ⟨j, below, found⟩

theorem exists_highest (nonzero : x ≠ 0) : ∃ k < n, IsHighest x k := by
  obtain ⟨k, inside, set⟩ := exists_bit nonzero
  induction left : n - k using Nat.strongRecOn generalizing k with
  | ind room ih =>
      by_cases higher : ∃ j > k, x.getLsbD j = true
      · obtain ⟨j, above, found⟩ := higher
        have bound := BitVec.lt_of_getLsbD found
        exact ih (n - j) (by omega) j bound found rfl
      · refine ⟨k, inside, set, fun j above => ?_⟩
        simpa using fun found => higher ⟨j, above, found⟩

theorem IsLowest.lt (low : IsLowest x k) : k < n := BitVec.lt_of_getLsbD low.1

theorem IsHighest.lt (high : IsHighest x k) : k < n := BitVec.lt_of_getLsbD high.1

theorem IsLowest.isolate (low : IsLowest x k) : x &&& -x = BitVec.twoPow n k := by
  apply BitVec.eq_of_getLsbD_eq
  intro j inside
  rw [BitVec.getLsbD_and, BitVec.getLsbD_neg, BitVec.getLsbD_twoPow]
  rcases Nat.lt_trichotomy j k with below | rfl | above
  · simp [low.2 j below, Nat.ne_of_gt below]
  · have none : ¬∃ i < j, x.getLsbD i = true := by
      rintro ⟨i, below, set⟩
      simp [low.2 i below] at set
    simp [low.1, none, inside]
  · have set : ∃ i < j, x.getLsbD i = true := ⟨k, above, low.1⟩
    simp [set, inside, Nat.ne_of_lt above]

theorem IsHighest.shifted (high : IsHighest x k) (left : x >>> s ≠ 0) :
    s ≤ k ∧ IsHighest (x >>> s) (k - s) := by
  obtain ⟨j, _, set⟩ := exists_bit left
  rw [BitVec.getLsbD_ushiftRight] at set
  have reaches : s ≤ k := by
    by_contra short
    simp [high.2 (s + j) (by omega)] at set
  refine ⟨reaches, ?_, fun i above => ?_⟩
  · rw [BitVec.getLsbD_ushiftRight, Nat.add_sub_cancel' reaches]
    exact high.1
  · rw [BitVec.getLsbD_ushiftRight]
    exact high.2 (s + i) (by omega)

theorem IsHighest.lt_of_shifted (high : IsHighest x k) (gone : x >>> s = 0) : k < s := by
  by_contra reaches
  have bit := congrArg (BitVec.getLsbD · (k - s)) gone
  simp [Nat.add_sub_cancel' (Nat.not_lt.mp reaches), high.1] at bit

theorem IsHighest.setWidth {w : Nat} (high : IsHighest x k) (fits : k < w) :
    IsHighest (x.setWidth w) k := by
  refine ⟨?_, fun j above => ?_⟩
  · rw [BitVec.getLsbD_setWidth, decide_eq_true fits, Bool.true_and]
    exact high.1
  · rw [BitVec.getLsbD_setWidth, high.2 j above, Bool.and_false]

end Cpp
