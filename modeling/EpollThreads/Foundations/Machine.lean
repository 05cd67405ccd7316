import Mathlib.Data.List.Basic
import Mathlib.Data.List.Induction
import Mathlib.Tactic.Common

/-!
# Machines with executable steps and their finite runs

A machine has a set of start states and one partial, executable step per
action; an action that is not enabled has no successor. A run records its
actions in order, so a condition on the environment is a condition on the
recorded list, and a concrete run is checked by evaluating `exec`.
-/

namespace EpollThreads.Foundations

universe u v

structure Machine (σ : Type u) (α : Type v) where
  start : σ → Prop
  step : σ → α → Option σ

namespace Machine

variable {σ : Type u} {α : Type v} (M : Machine σ α)

/-- Runs grow at their end, as executions do. -/
inductive Run : σ → List α → σ → Prop
  | nil (s : σ) : Run s [] s
  | snoc {s t u : σ} {tr : List α} {a : α} :
      Run s tr t → M.step t a = some u → Run s (tr ++ [a]) u

/-- `tr` leads from some start state to `t`. -/
def Reaches (tr : List α) (t : σ) : Prop := ∃ s, M.start s ∧ M.Run s tr t

/-- Evaluation of a given list of actions. -/
def exec : σ → List α → Option σ
  | s, [] => some s
  | s, a :: as => (M.step s a).bind fun t => exec t as

/-- The machine that takes only those steps of `M` that meet `P`. -/
def restrict (P : σ → α → σ → Prop) [∀ s a t, Decidable (P s a t)] : Machine σ α where
  start := M.start
  step s a := (M.step s a).filter fun t => P s a t

variable {M}

theorem restrict_step {P : σ → α → σ → Prop} [∀ s a t, Decidable (P s a t)] {s t : σ} {a : α} :
    (M.restrict P).step s a = some t ↔ M.step s a = some t ∧ P s a t := by
  simp [restrict, Option.filter_eq_some_iff]

theorem Run.append {s t u : σ} {tr tr' : List α} (h : M.Run s tr t) (h' : M.Run t tr' u) :
    M.Run s (tr ++ tr') u := by
  induction h' with
  | nil => simpa using h
  | snoc _ hstep ih => simpa using ih.snoc hstep

theorem Run.single {s t : σ} {a : α} (h : M.step s a = some t) : M.Run s [a] t := by
  simpa using (Run.nil s).snoc h

theorem Run.of_exec {s t : σ} {tr : List α} (h : M.exec s tr = some t) : M.Run s tr t := by
  induction tr generalizing s with
  | nil =>
    simp only [exec, Option.some.injEq] at h
    exact h ▸ .nil s
  | cons a as ih =>
    obtain ⟨u, hu, ht⟩ := Option.bind_eq_some_iff.mp h
    exact (Run.single hu).append (ih ht)

/-- The actions of a run determine where it ends. -/
theorem Run.functional {s t u : σ} {tr : List α} (h : M.Run s tr t) (h' : M.Run s tr u) :
    t = u := by
  induction h generalizing u with
  | nil =>
    generalize htr : ([] : List α) = tr at h'
    cases h' with
    | nil => rfl
    | snoc => simp at htr
  | @snoc t₁ _ tr a _ hstep ih =>
    generalize htr : tr ++ [a] = tr' at h'
    cases h' with
    | nil => simp at htr
    | snoc hrun hstep' =>
      obtain ⟨rfl, ha⟩ := List.append_inj' htr rfl
      obtain rfl : a = _ := List.singleton_inj.mp ha
      obtain rfl := ih hrun
      exact Option.some.inj (hstep.symm.trans hstep')

theorem Run.last {s u : σ} {tr : List α} {a : α} (h : M.Run s (tr ++ [a]) u) :
    ∃ t, M.Run s tr t ∧ M.step t a = some u := by
  generalize htr : tr ++ [a] = tr' at h
  cases h with
  | nil => simp at htr
  | snoc hrun hstep =>
    obtain ⟨rfl, ha⟩ := List.append_inj' htr rfl
    obtain rfl : a = _ := List.singleton_inj.mp ha
    exact ⟨_, hrun, hstep⟩

theorem Run.split {s u : σ} {tr tr' : List α} (h : M.Run s (tr ++ tr') u) :
    ∃ t, M.Run s tr t ∧ M.Run t tr' u := by
  induction tr' using List.reverseRecOn generalizing u with
  | nil => exact ⟨u, by simpa using h, .nil u⟩
  | append_singleton tr' a ih =>
    rw [← List.append_assoc] at h
    obtain ⟨v, hv, hstep⟩ := h.last
    obtain ⟨t, ht, hrun⟩ := ih hv
    exact ⟨t, ht, hrun.snoc hstep⟩

theorem Run.first {s u : σ} {tr : List α} {a : α} (h : M.Run s (a :: tr) u) :
    ∃ t, M.step s a = some t ∧ M.Run t tr u := by
  have h' : M.Run s ([a] ++ tr) u := h
  obtain ⟨t, ht, hrun⟩ := h'.split
  have ht' : M.Run s ([] ++ [a]) t := ht
  obtain ⟨s', hs', hstep⟩ := ht'.last
  obtain rfl := (Run.nil s).functional hs'
  exact ⟨t, hstep, hrun⟩

/-- A list of actions that evaluates is a run to the state it evaluates to. -/
theorem Run.of_isSome {s : σ} (tr : List α) (h : (M.exec s tr).isSome) :
    M.Run s tr ((M.exec s tr).get h) :=
  .of_exec (Option.some_get h).symm

theorem exec_cons {s : σ} {a : α} {as : List α} (h : (M.exec s (a :: as)).isSome) :
    ∃ t, M.step s a = some t ∧ (M.exec t as).isSome := by
  obtain ⟨u, hu⟩ := Option.isSome_iff_exists.mp h
  obtain ⟨t, ht, hu⟩ := Option.bind_eq_some_iff.mp hu
  exact ⟨t, ht, by rw [hu]; rfl⟩

theorem exec_append {s : σ} {tr tr' : List α} (h : (M.exec s (tr ++ tr')).isSome) :
    ∃ t, M.Run s tr t ∧ (M.exec t tr').isSome := by
  induction tr generalizing s with
  | nil => exact ⟨s, .nil s, h⟩
  | cons a as ih =>
    obtain ⟨u, hu, h⟩ := exec_cons h
    obtain ⟨t, ht, h⟩ := ih h
    exact ⟨t, (Run.single hu).append ht, h⟩

/-- A property of states kept by every allowed step is kept by a run of allowed steps. -/
theorem Run.invariant {I : σ → Prop} {P : α → Prop} {s t : σ} {tr : List α}
    (h : M.Run s tr t) (next : ∀ {s a t}, P a → I s → M.step s a = some t → I t)
    (hs : I s) (hP : ∀ a ∈ tr, P a) : I t := by
  induction h with
  | nil => exact hs
  | snoc hrun hstep ih =>
    simp only [List.mem_append, List.mem_singleton] at hP
    exact next (hP _ (Or.inr rfl)) (ih fun a ha => hP a (Or.inl ha)) hstep

/-- The induction behind safety: true at the start, kept by every allowed step. -/
theorem Reaches.invariant_of {I : σ → Prop} {P : α → Prop} {t : σ} {tr : List α}
    (h : M.Reaches tr t) (init : ∀ {s}, M.start s → I s)
    (next : ∀ {s a t}, P a → I s → M.step s a = some t → I t) (hP : ∀ a ∈ tr, P a) : I t := by
  obtain ⟨s, hs, hrun⟩ := h
  exact hrun.invariant next (init hs) hP

theorem Reaches.invariant {I : σ → Prop} {t : σ} {tr : List α} (h : M.Reaches tr t)
    (init : ∀ {s}, M.start s → I s) (next : ∀ {s a t}, I s → M.step s a = some t → I t) : I t :=
  h.invariant_of (P := fun _ => True) init (fun _ => next) (fun _ _ => trivial)

/-- Induction along the history, at each step with what is known of all reachable states. -/
theorem Reaches.history {Q : List α → σ → Prop} {t : σ} {tr : List α} (h : M.Reaches tr t)
    (init : ∀ {s}, M.start s → Q [] s)
    (next : ∀ {tr s a t}, M.Reaches tr s → Q tr s → M.step s a = some t → Q (tr ++ [a]) t) :
    Q tr t := by
  obtain ⟨s, hs, hrun⟩ := h
  induction hrun with
  | nil => exact init hs
  | snoc hrun hstep ih => exact next ⟨_, hs, hrun⟩ ih hstep

theorem Reaches.of_isSome {s : σ} (hs : M.start s) (tr : List α) (h : (M.exec s tr).isSome) :
    M.Reaches tr ((M.exec s tr).get h) :=
  ⟨s, hs, .of_isSome tr h⟩

theorem Run.of_restrict {P : σ → α → σ → Prop} [∀ s a t, Decidable (P s a t)] {s t : σ}
    {tr : List α} (h : (M.restrict P).Run s tr t) : M.Run s tr t := by
  induction h with
  | nil => exact .nil _
  | snoc _ hstep ih => exact ih.snoc (restrict_step.mp hstep).1

theorem Reaches.of_restrict {P : σ → α → σ → Prop} [∀ s a t, Decidable (P s a t)] {t : σ}
    {tr : List α} (h : (M.restrict P).Reaches tr t) : M.Reaches tr t := by
  obtain ⟨s, hs, hrun⟩ := h
  exact ⟨s, hs, hrun.of_restrict⟩

/-- When `Q`, once lost, stays lost, and is lost exactly by the steps that break `P`, the
runs to good states are those whose steps all meet `P`. -/
theorem Reaches.good_iff_restrict {P : σ → α → σ → Prop} [∀ s a t, Decidable (P s a t)]
    {Q : σ → Prop} {t : σ} {tr : List α} (h : M.Reaches tr t)
    (init : ∀ {s}, M.start s → Q s)
    (back : ∀ {tr s a t}, M.Reaches tr s → M.step s a = some t → Q t → Q s)
    (keeps : ∀ {tr s a t}, M.Reaches tr s → Q s → M.step s a = some t → (Q t ↔ P s a t)) :
    Q t ↔ (M.restrict P).Reaches tr t := by
  constructor
  · obtain ⟨s, hs, hrun⟩ := h
    induction hrun with
    | nil => exact fun _ => ⟨_, hs, .nil _⟩
    | snoc hrun hstep ih =>
      intro hgood
      have hreach : M.Reaches _ _ := ⟨s, hs, hrun⟩
      have hold := back hreach hstep hgood
      obtain ⟨s', hs', hrun'⟩ := ih hold
      have hallowed := (keeps hreach hold hstep).mp hgood
      exact ⟨s', hs', hrun'.snoc (restrict_step.mpr ⟨hstep, hallowed⟩)⟩
  · intro hr
    refine hr.history (Q := fun _ t => Q t) init ?_
    intro tr s a t hreach hgood hstep
    obtain ⟨hstep, hallowed⟩ := restrict_step.mp hstep
    exact (keeps hreach.of_restrict hgood hstep).mpr hallowed

end Machine
end EpollThreads.Foundations
