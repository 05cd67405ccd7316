import EpollThreads.Foundations.Observation

/-!
# Forward simulation

Each step of the concrete machine is answered by a run of the abstract one that
shows the same events. Every history of the concrete machine is then a history
of the abstract one.
-/

namespace EpollThreads.Foundations

universe u v u' v' w

variable {σ : Type u} {α : Type v} {τ : Type u'} {β : Type v'} {ω : Type w}

/-- `R` relates a state of `M` to the states of `N` that it may stand for. -/
structure Simulation (M : Machine σ α) (N : Machine τ β) (R : σ → τ → Prop)
    (seen : σ → α → Option ω) (shown : τ → β → Option ω) : Prop where
  start : ∀ {s}, M.start s → ∃ t, N.start t ∧ R s t
  step : ∀ {s t a s'}, R s t → M.step s a = some s' →
    ∃ tr t', N.Run t tr t' ∧ R s' t' ∧ N.record shown t tr = (seen s a).toList

namespace Simulation

variable {M : Machine σ α} {N : Machine τ β} {R : σ → τ → Prop}
  {seen : σ → α → Option ω} {shown : τ → β → Option ω}

/-- A step that the abstract machine does not take part in. -/
theorem stutter {s s' : σ} {t : τ} {a : α} (hr : R s' t) (hs : seen s a = none) :
    ∃ tr t', N.Run t tr t' ∧ R s' t' ∧ N.record shown t tr = (seen s a).toList :=
  ⟨[], t, .nil t, hr, by simp [Machine.record, hs]⟩

theorem follow {s s' : σ} {t t' : τ} {a : α} {b : β} (hstep : N.step t b = some t')
    (hr : R s' t') (hs : shown t b = seen s a) :
    ∃ tr t', N.Run t tr t' ∧ R s' t' ∧ N.record shown t tr = (seen s a).toList :=
  ⟨[b], t', .single hstep, hr, by simp [Machine.record, hstep, hs]⟩

theorem run (h : Simulation M N R seen shown) {s s' : σ} {t : τ} {tr : List α}
    (hrun : M.Run s tr s') (hr : R s t) :
    ∃ tr' t', N.Run t tr' t' ∧ R s' t' ∧ N.record shown t tr' = M.record seen s tr := by
  induction hrun with
  | nil => exact ⟨[], t, .nil t, hr, rfl⟩
  | snoc hrun hstep ih =>
    obtain ⟨tr₁, t₁, hrun₁, hr₁, hrec₁⟩ := ih
    obtain ⟨tr₂, t₂, hrun₂, hr₂, hrec₂⟩ := h.step hr₁ hstep
    refine ⟨tr₁ ++ tr₂, t₂, hrun₁.append hrun₂, hr₂, ?_⟩
    rw [hrun₁.record_append, hrun.record_snoc, hrec₁, hrec₂]

end Simulation
end EpollThreads.Foundations
