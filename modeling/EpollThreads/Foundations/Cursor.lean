import Mathlib.Order.Basic
import Mathlib.Tactic

/-!
# An index that goes over a sorted list

A loop that goes over a list by its index takes every element once where the list is
sorted: what it has taken is less than all that it comes to. The list may be emptied
meanwhile, or get larger elements at its end.
-/

namespace EpollThreads.Foundations

variable {α : Type*} [Preorder α] {l l' : List α} {j k : ℕ} {a b : α}

/-- From index `j` on there are larger elements only. -/
def Below (l : List α) (j : ℕ) (a : α) : Prop := ∀ x ∈ l.drop j, a < x

namespace Below

theorem nil : Below [] j a := by
  intro x hx
  simp at hx

theorem mono (h : Below l j a) (hjk : j ≤ k) : Below l k a := by
  intro x hx
  refine h x ?_
  rw [← Nat.sub_add_cancel hjk, Nat.add_comm, ← List.drop_drop] at hx
  exact List.mem_of_mem_drop hx

theorem append (h : Below l j a) (hnew : ∀ x ∈ l', a < x) : Below (l ++ l') j a := by
  intro x hx
  rw [List.drop_append] at hx
  rcases List.mem_append.mp hx with hx | hx
  · exact h x hx
  · exact hnew x (List.mem_of_mem_drop hx)

/-- The element at the index is behind it in a step. -/
theorem of_sorted (h : l.Pairwise (· < ·)) (ha : l[j]? = some a) : Below l (j + 1) a := by
  obtain ⟨hj, rfl⟩ := List.getElem?_eq_some_iff.mp ha
  have hsorted : (l.drop j).Pairwise (· < ·) := h.drop
  rw [List.drop_eq_getElem_cons hj, List.pairwise_cons] at hsorted
  exact hsorted.1

/-- What is behind the index is not taken again. -/
theorem ne (h : Below l j a) (hb : l[j]? = some b) : a ≠ b := by
  obtain ⟨hj, rfl⟩ := List.getElem?_eq_some_iff.mp hb
  refine (h _ ?_).ne
  rw [List.drop_eq_getElem_cons hj]
  exact List.mem_cons_self

end Below
end EpollThreads.Foundations
