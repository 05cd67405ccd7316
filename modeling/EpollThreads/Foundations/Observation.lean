import EpollThreads.Foundations.Machine

/-!
# What is recorded along a run

A record of a run is a list of observations, each made of a state and the action
taken there. Properties of the record go by induction over the run, with an
invariant that speaks of the record so far.
-/

namespace EpollThreads.Foundations.Machine

universe u v w

variable {σ : Type u} {α : Type v} {ω : Type w} (M : Machine σ α)

/-- The observations made along the actions from `s` on, in order. -/
def record (obs : σ → α → Option ω) : σ → List α → List ω
  | _, [] => []
  | s, a :: as => (obs s a).toList ++ (M.step s a).elim [] fun t => record obs t as

/-- `P` holds at every step of the run of `tr` from `s`. -/
def EachStep (s : σ) (tr : List α) (P : σ → α → Prop) : Prop :=
  ∀ tr' a u, tr' ++ [a] <+: tr → M.Run s tr' u → P u a

/-- `G` holds at every point of the run of `tr` from `s`. -/
def Everywhere (s : σ) (tr : List α) (G : List α → σ → Prop) : Prop :=
  ∀ tr' u, tr' <+: tr → M.Run s tr' u → G tr' u

variable {M} {obs : σ → α → Option ω}

theorem Run.record_append {s t : σ} {tr : List α} (h : M.Run s tr t) (tr' : List α) :
    M.record obs s (tr ++ tr') = M.record obs s tr ++ M.record obs t tr' := by
  induction tr generalizing s with
  | nil =>
    obtain rfl := (Run.nil s).functional h
    rfl
  | cons a tr ih =>
    obtain ⟨u, hu, hrun⟩ := h.first
    simp only [List.cons_append, record, hu, Option.elim_some, ih hrun, List.append_assoc]

theorem Run.record_snoc {s t : σ} {tr : List α} (h : M.Run s tr t) (a : α) :
    M.record obs s (tr ++ [a]) = M.record obs s tr ++ (obs t a).toList := by
  rw [h.record_append]
  cases hs : M.step t a <;> simp [record, hs]

theorem record_eq_nil {s : σ} {tr : List α} (h : ∀ a ∈ tr, ∀ u, obs u a = none) :
    M.record obs s tr = [] := by
  induction tr generalizing s with
  | nil => rfl
  | cons a tr ih =>
    rw [record, h a List.mem_cons_self]
    cases M.step s a with
    | none => rfl
    | some t => exact ih fun b hb => h b (List.mem_cons_of_mem _ hb)

/-- An invariant of the state and the record so far. -/
theorem Run.invariant_record {I : σ → List ω → Prop} {P : α → Prop} {s t : σ} {tr : List α}
    (h : M.Run s tr t) (init : I s [])
    (next : ∀ {u a v l}, P a → I u l → M.step u a = some v → I v (l ++ (obs u a).toList))
    (hP : ∀ a ∈ tr, P a) : I t (M.record obs s tr) := by
  induction h with
  | nil => exact init
  | snoc hrun hstep ih =>
    simp only [List.mem_append, List.mem_singleton] at hP
    rw [hrun.record_snoc]
    exact next (hP _ (Or.inr rfl)) (ih fun a ha => hP a (Or.inl ha)) hstep

theorem Run.eachStep_snoc {P : σ → α → Prop} {s t : σ} {tr : List α} (h : M.Run s tr t) (a : α) :
    M.EachStep s (tr ++ [a]) P ↔ M.EachStep s tr P ∧ P t a := by
  constructor
  · intro hp
    refine ⟨fun tr' b u hpre hrun => hp tr' b u (hpre.trans (List.prefix_append ..)) hrun, ?_⟩
    exact hp tr a t List.prefix_rfl h
  · rintro ⟨hp, hlast⟩ tr' b u hpre hrun
    rcases List.prefix_concat_iff.mp hpre with heq | hpre
    · obtain ⟨rfl, hb⟩ := List.append_inj' heq rfl
      obtain rfl : b = a := List.singleton_inj.mp hb
      rwa [hrun.functional h]
    · exact hp tr' b u hpre hrun

theorem Run.everywhere_snoc {G : List α → σ → Prop} {s t u : σ} {tr : List α} {a : α}
    (h : M.Run s tr t) (hstep : M.step t a = some u) :
    M.Everywhere s (tr ++ [a]) G ↔ M.Everywhere s tr G ∧ G (tr ++ [a]) u := by
  constructor
  · intro hg
    refine ⟨fun tr' v hpre hrun => hg tr' v (hpre.trans (List.prefix_append ..)) hrun, ?_⟩
    exact hg _ u List.prefix_rfl (h.snoc hstep)
  · rintro ⟨hg, hlast⟩ tr' v hpre hrun
    rcases List.prefix_concat_iff.mp hpre with rfl | hpre
    · rwa [hrun.functional (h.snoc hstep)]
    · exact hg tr' v hpre hrun

/-- Two conditions on steps that agree at every state of the run. -/
theorem Run.eachStep_congr {P Q : σ → α → Prop} {s t : σ} {tr : List α} (h : M.Run s tr t)
    (hpq : ∀ {tr' u a v}, M.Run s tr' u → M.step u a = some v → (P u a ↔ Q u a)) :
    M.EachStep s tr P ↔ M.EachStep s tr Q := by
  induction h with
  | nil => exact ⟨fun _ _ _ _ h => by simp at h, fun _ _ _ _ h => by simp at h⟩
  | snoc hrun hstep ih =>
    rw [hrun.eachStep_snoc, hrun.eachStep_snoc, ih, hpq hrun hstep]

/-- When `P` is what a step has to meet to keep the invariant, and a step that does not leads
to a point that is not good, a run is good everywhere exactly if each of its steps meets `P`. -/
theorem Run.everywhere_iff_eachStep {I G : σ → List ω → Prop} {P : σ → α → Prop} {s t : σ}
    {tr : List α} (h : M.Run s tr t) (init : I s []) (good : ∀ {u l}, I u l → G u l)
    (keeps : ∀ {u a v l}, I u l → P u a → M.step u a = some v → I v (l ++ (obs u a).toList))
    (fails : ∀ {u a v l}, I u l → ¬P u a → M.step u a = some v → ¬G v (l ++ (obs u a).toList)) :
    (M.Everywhere s tr fun tr' u => G u (M.record obs s tr')) ↔ M.EachStep s tr P := by
  have hall : ((M.Everywhere s tr fun tr' u => G u (M.record obs s tr')) ↔ M.EachStep s tr P) ∧
      (M.EachStep s tr P → I t (M.record obs s tr)) := by
    induction h with
    | nil =>
      refine ⟨⟨fun _ _ _ _ h => by simp at h, fun _ tr' u hpre hrun => ?_⟩, fun _ => init⟩
      obtain rfl := List.prefix_nil.mp hpre
      rw [hrun.functional (.nil _)]
      exact good init
    | @snoc u v tr a hrun hstep ih =>
      obtain ⟨hiff, hinv⟩ := ih
      rw [hrun.everywhere_snoc hstep, hrun.eachStep_snoc, hiff, hrun.record_snoc]
      refine ⟨and_congr_right fun hp => ⟨fun hg => ?_, fun hlast => ?_⟩, ?_⟩
      · by_contra hlast
        exact fails (hinv hp) hlast hstep hg
      · exact good (keeps (hinv hp) hlast hstep)
      · rintro ⟨hp, hlast⟩
        exact keeps (hinv hp) hlast hstep
  exact hall.1

end EpollThreads.Foundations.Machine
