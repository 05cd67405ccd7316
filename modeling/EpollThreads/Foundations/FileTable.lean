import EpollThreads.Foundations.Descriptors
import Mathlib.Logic.Function.Basic

/-!
# What the descriptors of a process denote

The table of open files behind the descriptor numbers, with `open`, `dup2` and
`close`. A number at or above the limit can be left from before; it is neither given
out nor a target of `dup2`.
-/

namespace EpollThreads.Foundations

universe u

structure FileTable (F : Type u) where
  file : ℕ → Option F
  limit : ℕ

namespace FileTable

variable {F : Type u} {t : FileTable F} {f : F} {fd n : ℕ}

/-- The numbers in use below the limit. -/
def descriptors (t : FileTable F) : Descriptors :=
  ⟨(Finset.range t.limit).filter fun n => (t.file n).isSome, t.limit⟩

/-- A new descriptor for `f`, none if there is no number left. -/
def open_ (t : FileTable F) (f : F) : Option (ℕ × FileTable F) :=
  let fd := t.descriptors.lowest
  if fd < t.limit then some (fd, { t with file := Function.update t.file fd (some f) }) else none

/-- `dup2(fd, n)`; an error leaves the table as it is. -/
def dup2 (t : FileTable F) (fd n : ℕ) : FileTable F :=
  if (t.file fd).isSome ∧ n < t.limit then { t with file := Function.update t.file n (t.file fd) }
  else t

def close (t : FileTable F) (fd : ℕ) : FileTable F :=
  { t with file := Function.update t.file fd none }

@[simp] theorem limit_dup2 : (t.dup2 fd n).limit = t.limit := by
  unfold dup2
  split <;> rfl

@[simp] theorem limit_close : (t.close fd).limit = t.limit := rfl

theorem file_dup2 (h : t.file fd = some f) (k : ℕ) :
    (t.dup2 fd n).file k = if k = n ∧ n < t.limit then some f else t.file k := by
  unfold dup2
  by_cases hn : n < t.limit
  · by_cases hk : k = n <;> simp [h, hn, hk]
  · simp [hn]

theorem file_dup2_self (h : t.file fd = some f) : (t.dup2 fd n).file fd = some f := by
  rw [file_dup2 h]
  split
  · rfl
  · exact h

theorem open_cases {r : ℕ × FileTable F} (h : t.open_ f = some r) :
    r.1 < t.limit ∧ t.file r.1 = none ∧
      r.2 = { t with file := Function.update t.file r.1 (some f) } := by
  simp only [open_, Option.ite_none_right_eq_some, Option.some.injEq] at h
  obtain ⟨hlt, rfl⟩ := h
  have hfree : t.descriptors.lowest ∉ t.descriptors.opened :=
    Nat.find_spec (Infinite.exists_notMem_finset t.descriptors.opened)
  refine ⟨hlt, ?_, rfl⟩
  simp only [descriptors, Finset.mem_filter, Finset.mem_range, not_and, Bool.not_eq_true,
    Option.isSome_eq_false_iff, Option.isNone_iff_eq_none] at hfree
  exact hfree hlt

/-- Closing what was just opened leaves the table as it was. -/
theorem close_open {r : ℕ × FileTable F} (h : t.open_ f = some r) : r.2.close r.1 = t := by
  obtain ⟨-, hfree, ht⟩ := open_cases h
  rw [ht, close]
  simp [← hfree]

/-- There is a descriptor to be had as long as a number below the limit is free. -/
theorem open_isSome (hn : n < t.limit) (h : t.file n = none) : (t.open_ f).isSome := by
  have hle : t.descriptors.lowest ≤ n := Nat.find_min' _ (by simp [descriptors, h])
  simp [open_, hle.trans_lt hn]

end FileTable
end EpollThreads.Foundations
