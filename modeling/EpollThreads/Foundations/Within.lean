import EpollThreads.Foundations.Machine

/-!
# What can still happen within so many steps

An event is within reach of a state if some run from there ends with it. A machine
that takes the steps of another one has the other's events within reach as well.
-/

namespace EpollThreads.Foundations.Machine

universe u v w x

variable {σ : Type u} {α : Type v} {τ : Type w} {β : Type x}

/-- At most `n` actions lead to a step that meets `P`; it is the last of them. -/
inductive Within (M : Machine σ α) (P : σ → α → σ → Prop) : ℕ → σ → Prop
  | now {n : ℕ} {s t : σ} {a : α} (h : M.step s a = some t) (hp : P s a t) : Within M P (n + 1) s
  | later {n : ℕ} {s t : σ} {a : α} (h : M.step s a = some t) (hn : Within M P n t) :
      Within M P (n + 1) s

namespace Within

variable {M : Machine σ α} {N : Machine τ β} {P : σ → α → σ → Prop} {n m : ℕ} {s : σ}

theorem mono (h : M.Within P n s) (hle : n ≤ m) : M.Within P m s := by
  induction h generalizing m with
  | now h hp =>
    obtain ⟨k, rfl⟩ := Nat.exists_eq_add_of_le' (Nat.one_le_of_lt hle)
    exact .now h hp
  | later h _ ih =>
    obtain ⟨k, rfl⟩ := Nat.exists_eq_add_of_le' (Nat.one_le_of_lt hle)
    exact .later h (ih (Nat.le_of_succ_le_succ hle))

theorem exists_run (h : M.Within P n s) :
    ∃ tr a t u, tr.length < n ∧ M.Run s tr t ∧ M.step t a = some u ∧ P t a u := by
  induction h with
  | @now n s t a h hp => exact ⟨[], a, s, t, n.succ_pos, .nil s, h, hp⟩
  | @later n s s' b h _ ih =>
    obtain ⟨tr, a, t, u, hlen, hrun, hstep, hp⟩ := ih
    exact ⟨b :: tr, a, t, u, Nat.succ_lt_succ hlen, (Run.single h).append hrun, hstep, hp⟩

/-- A machine that takes the steps of another one, wherever the states are related. -/
theorem lift {R : τ → σ → Prop} {Q : τ → β → τ → Prop}
    (sim : ∀ {x s a t}, R x s → M.step s a = some t →
      ∃ b y, N.step x b = some y ∧ R y t ∧ (P s a t → Q x b y))
    (h : M.Within P n s) {x : τ} (hr : R x s) : N.Within Q n x := by
  induction h generalizing x with
  | now h hp =>
    obtain ⟨b, y, hstep, -, hq⟩ := sim hr h
    exact .now hstep (hq hp)
  | later h _ ih =>
    obtain ⟨b, y, hstep, hy, -⟩ := sim hr h
    exact .later hstep (ih hy)

end Within
end EpollThreads.Foundations.Machine
