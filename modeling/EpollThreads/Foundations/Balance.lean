import Mathlib.Algebra.Order.Group.Defs
import Mathlib.Data.Finset.Lattice.Fold
import Mathlib.Data.Fintype.Basic
import Mathlib.Tactic.Common

/-!
# The spread of a family of loads

The difference between the largest and the smallest of finitely many loads.
Giving the next job to a least loaded place never makes it larger than it was or
than the job.
-/

namespace EpollThreads.Foundations

universe u v

variable {ι : Type u} {α : Type v} [Fintype ι] [Nonempty ι]
  [AddCommGroup α] [LinearOrder α] [IsOrderedAddMonoid α]

def spread (k : ι → α) : α :=
  Finset.univ.sup' Finset.univ_nonempty k - Finset.univ.inf' Finset.univ_nonempty k

theorem sub_le_spread (k : ι → α) (i j : ι) : k i - k j ≤ spread k :=
  sub_le_sub (Finset.le_sup' k (Finset.mem_univ i)) (Finset.inf'_le k (Finset.mem_univ j))

theorem spread_le_iff {k : ι → α} {d : α} : spread k ≤ d ↔ ∀ i j, k i - k j ≤ d := by
  constructor
  · intro h i j
    exact (sub_le_spread k i j).trans h
  · intro h
    obtain ⟨i, -, hi⟩ := Finset.exists_mem_eq_sup' Finset.univ_nonempty k
    obtain ⟨j, -, hj⟩ := Finset.exists_mem_eq_inf' Finset.univ_nonempty k
    rw [spread, hi, hj]
    exact h i j

theorem spread_nonneg (k : ι → α) : 0 ≤ spread k := by
  obtain ⟨i⟩ := ‹Nonempty ι›
  simpa using sub_le_spread k i i

theorem spread_const (c : α) : spread (fun _ : ι => c) = 0 := by
  apply le_antisymm _ (spread_nonneg _)
  rw [spread_le_iff]
  simp

/-- One more job of size `c` at a place that nobody is below. -/
theorem spread_update_le [DecidableEq ι] {k : ι → α} {i : ι} {c : α} (hc : 0 ≤ c)
    (hi : ∀ j, k i ≤ k j) : spread (Function.update k i (k i + c)) ≤ max c (spread k) := by
  rw [spread_le_iff]
  intro a b
  by_cases ha : a = i
  · by_cases hb : b = i
    · subst ha hb
      simpa using Or.inl hc
    · subst ha
      rw [Function.update_self, Function.update_of_ne hb]
      apply le_max_of_le_left
      rw [sub_le_iff_le_add, add_comm c]
      exact add_le_add_left (hi b) c
  · by_cases hb : b = i
    · subst hb
      rw [Function.update_self, Function.update_of_ne ha]
      apply le_max_of_le_right
      exact (sub_le_sub_left (le_add_of_nonneg_right hc) _).trans (sub_le_spread k a b)
    · rw [Function.update_of_ne ha, Function.update_of_ne hb]
      exact le_max_of_le_right (sub_le_spread k a b)

end EpollThreads.Foundations
