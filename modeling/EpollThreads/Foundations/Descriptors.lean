import Mathlib.Data.Finset.Range
import Mathlib.Data.Fintype.EquivFin
import Mathlib.Order.Interval.Finset.Nat

/-!
# Descriptor numbers

The open descriptors of a process. A new one has the lowest number that is free;
numbers from the limit on are not given out.
-/

namespace EpollThreads.Foundations

structure Descriptors where
  opened : Finset ℕ
  limit : ℕ
  deriving DecidableEq

namespace Descriptors

def lowest (d : Descriptors) : ℕ := Nat.find (Infinite.exists_notMem_finset d.opened)

/-- The number of a new descriptor, -1 if there is none. -/
def acquire (d : Descriptors) : ℤ × Descriptors :=
  if d.lowest < d.limit then (d.lowest, { d with opened := insert d.lowest d.opened }) else (-1, d)

/-- The numbers below `n` are open. -/
def first (n limit : ℕ) : Descriptors := ⟨Finset.range n, limit⟩

variable {n limit : ℕ}

@[simp] theorem opened_first : (first n limit).opened = Finset.range n := rfl

@[simp] theorem limit_first : (first n limit).limit = limit := rfl

theorem lowest_first : (first n limit).lowest = n := by
  rw [lowest, Nat.find_eq_iff]
  simp

theorem acquire_first (h : n < limit) : (first n limit).acquire = (↑n, first (n + 1) limit) := by
  rw [acquire, lowest_first, limit_first, if_pos h, opened_first, ← Finset.range_add_one]
  rfl

theorem acquire_first_of_le (h : limit ≤ n) : (first n limit).acquire = (-1, first n limit) := by
  rw [acquire, lowest_first]
  exact if_neg (not_lt.mpr h)

end Descriptors
end EpollThreads.Foundations
