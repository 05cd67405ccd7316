import EpollThreads.Foundations.Observation
import Mathlib.Algebra.BigOperators.Fin

/-!
# Potentials

Each action has a price, and a potential of the states falls by at least that
price in every step. A run then costs no more than the potential it starts
with. Where actions also pay in, what a run does is bounded by what was paid,
even if the potential is only known as a relation.
-/

namespace EpollThreads.Foundations.Machine

universe u v w

variable {σ : Type u} {α : Type v} {ω : Type w} {M : Machine σ α}

def price (c : α → ℕ) (tr : List α) : ℕ := (tr.map c).sum

@[simp] theorem price_nil (c : α → ℕ) : price c [] = 0 := rfl

@[simp] theorem price_append (c : α → ℕ) (tr tr' : List α) :
    price c (tr ++ tr') = price c tr + price c tr' := by
  simp [price]

@[simp] theorem price_singleton (c : α → ℕ) (a : α) : price c [a] = c a := by simp [price]

/-- Actions that each cost 0 or 1 are counted by their price. -/
theorem price_eq_countP (p : α → Bool) (tr : List α) :
    price (fun a => if p a then 1 else 0) tr = tr.countP p := by
  induction tr with
  | nil => rfl
  | cons a tr ih =>
    have hcons : price (fun a => if p a then 1 else 0) (a :: tr) =
        (if p a then 1 else 0) + price (fun a => if p a then 1 else 0) tr := rfl
    rw [hcons, ih, List.countP_cons, Nat.add_comm]

/-- The rule of potentials, under an invariant; an action `a` pays in `b a`. -/
theorem Run.affords {I : σ → Prop} {f : σ → ℕ} {b c : α → ℕ} {s t : σ} {tr : List α}
    (h : M.Run s tr t) (hs : I s)
    (next : ∀ {s a t}, I s → M.step s a = some t → I t ∧ f t + c a ≤ f s + b a) :
    I t ∧ f t + price c tr ≤ f s + price b tr := by
  induction h with
  | nil => exact ⟨hs, by simp⟩
  | snoc _ hstep ih =>
    obtain ⟨hi, hle⟩ := ih
    obtain ⟨hi', hle'⟩ := next hi hstep
    refine ⟨hi', ?_⟩
    simp only [price_append, price_singleton]
    omega

theorem Run.pays {I : σ → Prop} {f : σ → ℕ} {c : α → ℕ} {s t : σ} {tr : List α}
    (h : M.Run s tr t) (hs : I s)
    (next : ∀ {s a t}, I s → M.step s a = some t → I t ∧ f t + c a ≤ f s) :
    I t ∧ f t + price c tr ≤ f s := by
  have hpays := h.affords (b := fun _ => 0) hs next
  simpa [price] using hpays

/-- The rule of amortized costs: `F s n` says that `n` suffices in the state `s`, and each step
pays for what is observed in it out of that and of what its action pays in. -/
theorem Run.amortized {F : σ → ℕ → Prop} {b : α → ℕ} {g : σ → α → Option ω} {s t : σ}
    {tr : List α} {n : ℕ} (h : M.Run s tr t) (hs : F s n)
    (next : ∀ {s a t n}, F s n → M.step s a = some t →
      ∃ m, F t m ∧ m + (g s a).toList.length ≤ n + b a) :
    ∃ m, F t m ∧ m + (M.record g s tr).length ≤ n + price b tr := by
  induction h with
  | nil => exact ⟨n, hs, by simp [record]⟩
  | snoc hrun hstep ih =>
    obtain ⟨m, hm, hle⟩ := ih
    obtain ⟨m', hm', hle'⟩ := next hm hstep
    refine ⟨m', hm', ?_⟩
    rw [hrun.record_snoc, List.length_append, price_append, price_singleton]
    omega

end EpollThreads.Foundations.Machine
