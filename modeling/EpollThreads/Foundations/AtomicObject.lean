import EpollThreads.Foundations.Observation
import Mathlib.Data.Fintype.BigOperators
import Mathlib.Algebra.BigOperators.Fin

/-!
# Shared objects with atomic operations

A call of an operation takes effect at one instant between its invocation and its
return, and returns what the operation makes of the value at that instant. The
histories of this machine are the linearizable ones: an implementation whose
histories are among them cannot be told from the object.
-/

namespace EpollThreads.Foundations

universe u v w x

/-- What an operation makes of the value of the object, and what it returns. -/
structure Operation (W : Type w) (R : Type x) where
  update : W → W
  result : W → R

namespace AtomicObject

variable {T : Type u} {ι : Type v} {W : Type w} {R : Type x}

/-- Where a thread stands with the call it has made. -/
inductive Phase (ι : Type v) (R : Type x)
  | idle
  | called (i : ι)
  | finished (i : ι) (r : R)

structure State (T : Type u) (ι : Type v) (W : Type w) (R : Type x) where
  value : W
  phase : T → Phase ι R

inductive Action (T : Type u) (ι : Type v) (R : Type x)
  | call (t : T) (i : ι)
  | commit (t : T)
  | ret (t : T) (i : ι) (r : R)

/-- What the callers see of an execution. -/
inductive Event (T : Type u) (ι : Type v) (R : Type x)
  | call (t : T) (i : ι)
  | ret (t : T) (i : ι) (r : R)

def Action.shown : Action T ι R → Option (Event T ι R)
  | .call t i => some (.call t i)
  | .commit _ => none
  | .ret t i r => some (.ret t i r)

/-- The operations that have returned, each with its result. -/
def returned (l : List (Event T ι R)) : List (ι × R) :=
  l.filterMap fun
    | .call _ _ => none
    | .ret _ i r => some (i, r)

@[simp] theorem returned_append (l l' : List (Event T ι R)) :
    returned (l ++ l') = returned l ++ returned l' := List.filterMap_append

section Credit

variable [AddCommMonoid W]

/-- What an operation that has taken effect but not returned has added. -/
def Phase.credit (γ : ι → R → W) : Phase ι R → W
  | .finished i r => γ i r
  | _ => 0

@[simp] theorem credit_idle (γ : ι → R → W) : (Phase.idle : Phase ι R).credit γ = 0 := rfl
@[simp] theorem credit_called (γ : ι → R → W) (i : ι) :
    (Phase.called i : Phase ι R).credit γ = 0 := rfl
@[simp] theorem credit_finished (γ : ι → R → W) (i : ι) (r : R) :
    (Phase.finished i r).credit γ = γ i r := rfl

/-- What the operations that have returned have added. -/
def settled (γ : ι → R → W) (l : List (Event T ι R)) : W :=
  ((returned l).map fun p => γ p.1 p.2).sum

theorem settled_append (γ : ι → R → W) (l l' : List (Event T ι R)) :
    settled γ (l ++ l') = settled γ l + settled γ l' := by
  simp [settled]

end Credit

variable [DecidableEq T]

theorem sum_update [Fintype T] [AddCommMonoid W] (f : Phase ι R → W) (g : T → Phase ι R)
    (x : T) (p : Phase ι R) :
    ∑ y, f (Function.update g x p y) + f (g x) = ∑ y, f (g y) + f p := by
  have hrest : ∑ y ∈ Finset.univ.erase x, f (Function.update g x p y) =
      ∑ y ∈ Finset.univ.erase x, f (g y) := by
    apply Finset.sum_congr rfl
    intro y hy
    rw [Function.update_of_ne (Finset.ne_of_mem_erase hy)]
  have hnew := Finset.sum_erase_add _ (fun y => f (Function.update g x p y)) (Finset.mem_univ x)
  have hold := Finset.sum_erase_add _ (fun y => f (g y)) (Finset.mem_univ x)
  rw [← hnew, ← hold, hrest, Function.update_self, add_right_comm]

def State.setPhase (s : State T ι W R) (t : T) (p : Phase ι R) : State T ι W R :=
  { s with phase := Function.update s.phase t p }

variable [DecidableEq ι] [DecidableEq R]

def step (op : ι → Operation W R) (s : State T ι W R) : Action T ι R → Option (State T ι W R)
  | .call t i =>
    match s.phase t with
    | .idle => some (s.setPhase t (.called i))
    | _ => none
  | .commit t =>
    match s.phase t with
    | .called i =>
      some { s.setPhase t (.finished i ((op i).result s.value)) with
        value := (op i).update s.value }
    | _ => none
  | .ret t i r =>
    match s.phase t with
    | .finished i' r' => if i' = i ∧ r' = r then some (s.setPhase t .idle) else none
    | _ => none

structure Start (v : W) (s : State T ι W R) : Prop where
  value : s.value = v
  phase : ∀ t, s.phase t = .idle

def machine (T : Type u) [DecidableEq T] (op : ι → Operation W R) (v : W) :
    Machine (State T ι W R) (Action T ι R) where
  start := Start v
  step := step op

/-- The calls and returns of a run, in order. -/
def history (op : ι → Operation W R) (v : W) (s : State T ι W R) (tr : List (Action T ι R)) :
    List (Event T ι R) :=
  (machine T op v).record (fun _ => Action.shown) s tr

variable {op : ι → Operation W R} {v : W} {s t : State T ι W R}

/-- What a step can do. -/
inductive Transition (op : ι → Operation W R) (s : State T ι W R) :
    Action T ι R → State T ι W R → Prop
  | call {x : T} {i : ι} (hp : s.phase x = .idle) :
      Transition op s (.call x i) (s.setPhase x (.called i))
  | commit {x : T} {i : ι} (hp : s.phase x = .called i) :
      Transition op s (.commit x) { s.setPhase x (.finished i ((op i).result s.value)) with
        value := (op i).update s.value }
  | ret {x : T} {i : ι} {r : R} (hp : s.phase x = .finished i r) :
      Transition op s (.ret x i r) (s.setPhase x .idle)

theorem step_cases {a : Action T ι R} (h : step op s a = some t) : Transition op s a t := by
  cases a with
  | call x i =>
    simp only [step] at h
    split at h
    · next hp => exact Option.some.inj h ▸ .call hp
    · cases h
  | commit x =>
    simp only [step] at h
    split at h
    · next hp => exact Option.some.inj h ▸ .commit hp
    · cases h
  | ret x i r =>
    simp only [step] at h
    split at h
    · next hp =>
      split_ifs at h with heq
      obtain ⟨rfl, rfl⟩ := heq
      exact Option.some.inj h ▸ .ret hp
    · cases h

theorem history_snoc {tr : List (Action T ι R)} {a : Action T ι R}
    (h : (machine T op v).Run s tr t) :
    history op v s (tr ++ [a]) = history op v s tr ++ a.shown.toList :=
  h.record_snoc a

/-- A call that has not taken effect is in the history. -/
theorem call_mem_history (hs : Start v s) {tr : List (Action T ι R)}
    (h : (machine T op v).Run s tr t) {x : T} {i : ι} (hp : t.phase x = .called i) :
    .call x i ∈ history op v s tr := by
  induction h generalizing x i with
  | nil => simp [hs.phase] at hp
  | snoc hrun hstep ih =>
    rw [history_snoc hrun, List.mem_append]
    cases step_cases hstep with
    | @call y j _ =>
      by_cases hx : x = y
      · subst hx
        obtain rfl : j = i := by simpa [State.setPhase] using hp
        exact Or.inr (by simp [Action.shown])
      · exact Or.inl (ih (by simpa [State.setPhase, hx] using hp))
    | @commit y j _ | @ret y j _ _ =>
      by_cases hx : x = y
      · subst hx
        simp [State.setPhase] at hp
      · exact Or.inl (ih (by simpa [State.setPhase, hx] using hp))

/-- When what an operation adds can be told from its result, the value is what the operations
that have taken effect have added. -/
theorem value_eq_add [Fintype T] [AddCommMonoid W] {γ : ι → R → W} {P : ι → Prop}
    (hγ : ∀ i, P i → ∀ w, (op i).update w = w + γ i ((op i).result w)) (hs : Start v s)
    {tr : List (Action T ι R)} (h : (machine T op v).Run s tr t)
    (hP : ∀ x i, .call x i ∈ history op v s tr → P i) :
    t.value = v + settled γ (history op v s tr) + ∑ x, (t.phase x).credit γ := by
  induction h with
  | nil => simp [hs.value, hs.phase, history, Machine.record, returned, settled]
  | @snoc t u tr a hrun hstep ih =>
    rw [history_snoc hrun] at hP ⊢
    have hold : ∀ x i, .call x i ∈ history op v s tr → P i := fun x i hmem =>
      hP x i (List.mem_append_left _ hmem)
    have ih := ih hold
    rw [settled_append]
    cases step_cases hstep with
    | @call x i hp =>
      have hsum := sum_update (Phase.credit γ) t.phase x (.called i)
      rw [hp, credit_idle, credit_called, add_zero, add_zero] at hsum
      have hnone : settled γ (Action.call x i : Action T ι R).shown.toList = 0 := rfl
      rw [hnone, add_zero]
      exact ih.trans (congrArg _ hsum.symm)
    | @commit x i hp =>
      have hsum := sum_update (Phase.credit γ) t.phase x (.finished i ((op i).result t.value))
      rw [hp, credit_called, credit_finished, add_zero] at hsum
      have hnone : settled γ (Action.commit x : Action T ι R).shown.toList = 0 := rfl
      rw [hnone, add_zero]
      calc (op i).update t.value
          = t.value + γ i ((op i).result t.value) :=
            hγ i (hold x i (call_mem_history hs hrun hp)) t.value
        _ = v + settled γ (history op v s tr) +
              (∑ y, (t.phase y).credit γ + γ i ((op i).result t.value)) := by
            rw [ih, add_assoc]
        _ = _ := congrArg _ hsum.symm
    | @ret x i r hp =>
      have hsum := sum_update (Phase.credit γ) t.phase x .idle
      rw [hp, credit_idle, credit_finished, add_zero] at hsum
      have hone : settled γ (Action.ret x i r : Action T ι R).shown.toList = γ i r := by
        simp [Action.shown, settled, returned]
      rw [hone]
      calc t.value
          = v + settled γ (history op v s tr) + ∑ y, (t.phase y).credit γ := ih
        _ = v + settled γ (history op v s tr) +
              (∑ y, (Function.update t.phase x .idle y).credit γ + γ i r) := by rw [hsum]
        _ = _ := by
            rw [add_comm _ (γ i r), ← add_assoc, ← add_assoc]
            rfl

end AtomicObject
end EpollThreads.Foundations
