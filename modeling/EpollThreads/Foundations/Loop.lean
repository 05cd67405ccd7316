import EpollThreads.Foundations.Machine
import Mathlib.Data.List.Range
import Mathlib.Data.Set.Finite.Lattice

/-!
# Loops driven by a stream of inputs

A `while` loop each of whose rounds waits for one input, such as the result of
a kernel call. Its states are its variables or, once it has returned, its
result; after that it takes no further input. A call faces an infinite stream
of inputs and uses a finite part of it when it returns.
-/

namespace EpollThreads.Foundations

universe u v w

/-- The inputs a loop can be given, and what a round makes of one. -/
structure Loop (σ : Type u) (ι : Type v) (ρ : Type w) where
  admits : σ → ι → Prop
  round : σ → ι → σ ⊕ ρ

namespace Loop

variable {σ : Type u} {ι : Type v} {ρ : Type w}

def machine (L : Loop σ ι ρ) [∀ s i, Decidable (L.admits s i)] : Machine (σ ⊕ ρ) ι where
  start _ := True
  step
    | .inl s, i => if L.admits s i then some (L.round s i) else none
    | .inr _, _ => none

/-- The first `k` inputs of a stream. -/
def inputs (o : ℕ → ι) (k : ℕ) : List ι := (List.range k).map o

@[simp] theorem inputs_zero (o : ℕ → ι) : inputs o 0 = [] := rfl

@[simp] theorem inputs_succ (o : ℕ → ι) (k : ℕ) : inputs o (k + 1) = inputs o k ++ [o k] := by
  simp [inputs, List.range_succ]

@[simp] theorem mem_inputs {o : ℕ → ι} {k : ℕ} {i : ι} :
    i ∈ inputs o k ↔ ∃ j < k, o j = i := by
  simp [inputs]

variable {L : Loop σ ι ρ} [∀ s i, Decidable (L.admits s i)] {x : σ ⊕ ρ} {o : ℕ → ι}

theorem step_eq_some {y z : σ ⊕ ρ} {i : ι} :
    L.machine.step y i = some z ↔ ∃ s, y = .inl s ∧ L.admits s i ∧ L.round s i = z := by
  cases y with
  | inl s => simp [machine, Option.ite_none_right_eq_some]
  | inr r => simp [machine]

/-- A call that stands at `x` can be given what the stream has for it. -/
def Feeds (L : Loop σ ι ρ) [∀ s i, Decidable (L.admits s i)] (x : σ ⊕ ρ) (o : ℕ → ι) : Prop :=
  ∀ k s, L.machine.Run x (inputs o k) (.inl s) → L.admits s (o k)

/-- The call returns after finitely many rounds. -/
def Returns (L : Loop σ ι ρ) [∀ s i, Decidable (L.admits s i)] (x : σ ⊕ ρ) (o : ℕ → ι) : Prop :=
  ∃ k r, L.machine.Run x (inputs o k) (.inr r)

theorem run_succ {k : ℕ} {s : σ} (h : L.machine.Run x (inputs o k) (.inl s))
    (ha : L.admits s (o k)) : L.machine.Run x (inputs o (k + 1)) (L.round s (o k)) := by
  rw [inputs_succ]
  exact h.snoc (step_eq_some.mpr ⟨s, rfl, ha, rfl⟩)

/-- A call that does not return is in the loop at every time. -/
theorem running_of_not_returns (ho : L.Feeds x o) (h : ¬L.Returns x o) (k : ℕ) :
    ∃ s, L.machine.Run x (inputs o k) (.inl s) := by
  induction k with
  | zero =>
    cases x with
    | inl s => exact ⟨s, .nil _⟩
    | inr r => exact (h ⟨0, r, .nil _⟩).elim
  | succ k ih =>
    obtain ⟨s, hs⟩ := ih
    have hnext := run_succ hs (ho k s hs)
    cases hr : L.round s (o k) with
    | inl t => exact ⟨t, hr ▸ hnext⟩
    | inr r => exact (h ⟨k + 1, r, hr ▸ hnext⟩).elim

theorem not_returns_of_running (h : ∀ k, ∃ s, L.machine.Run x (inputs o k) (.inl s)) :
    ¬L.Returns x o := by
  rintro ⟨k, r, hr⟩
  obtain ⟨s, hs⟩ := h k
  cases hs.functional hr

end Loop
end EpollThreads.Foundations
