import EpollThreads.Foundations.Observation
import Mathlib.Logic.Function.Basic

/-!
# Calls that may not return

The threads of a machine make calls between their steps, and signal handlers make
some on top of them; the calls go through a lock. A call may leave the lock held
for good, and a thread that then has one to make takes no further step. A run
with calls is a run of the machine once they are left out; conversely, while
every call gives the lock back, each run of the machine can be had with its calls.
-/

namespace EpollThreads.Foundations

/-- The thread of an action, the lists of calls it may make between this action from one state to
another and its next, the calls of signal handlers, the lock after a call, if the call returns,
and the lock once it is lost to a thread. -/
structure Calls (σ α θ κ ι : Type*) where
  actor : α → Option θ
  after : σ → α → σ → List (List κ)
  handler : List κ
  call : θ → κ → ι → Option ι
  lose : θ → ι → ι

/-- A state with the lock and the calls that each thread has still to make. -/
structure Calling (σ θ κ ι : Type*) where
  state : σ
  held : ι
  due : θ → List κ

/-- `signal x c`: a handler that makes call `c` starts on thread `x`. `lose x`: somebody else
leaves the lock held where `x` calls. -/
inductive CallingAct (α θ κ : Type*)
  | step (a : α) (calls : List κ)
  | call (x : θ)
  | signal (x : θ) (c : κ)
  | lose (x : θ)
  deriving DecidableEq, Repr

namespace CallingAct

variable {α θ κ : Type*}

def action : CallingAct α θ κ → Option α
  | .step a _ => some a
  | _ => none

/-- The run without its calls. -/
def actions (tr : List (CallingAct α θ κ)) : List α := tr.filterMap action

@[simp] theorem actions_nil : actions ([] : List (CallingAct α θ κ)) = [] := rfl

@[simp] theorem actions_append (tr tr' : List (CallingAct α θ κ)) :
    actions (tr ++ tr') = actions tr ++ actions tr' := List.filterMap_append

@[simp] theorem actions_step (a : α) (calls : List κ) :
    actions [(.step a calls : CallingAct α θ κ)] = [a] := rfl

@[simp] theorem actions_call (x : θ) : actions [(.call x : CallingAct α θ κ)] = [] := rfl

@[simp] theorem actions_signal (x : θ) (c : κ) :
    actions [(.signal x c : CallingAct α θ κ)] = [] := rfl

@[simp] theorem actions_lose (x : θ) : actions [(.lose x : CallingAct α θ κ)] = [] := rfl

end CallingAct

namespace Calling

variable {σ α θ κ ι : Type*} [DecidableEq θ] [DecidableEq κ]

def step (M : Machine σ α) (C : Calls σ α θ κ ι) (S : Calling σ θ κ ι) :
    CallingAct α θ κ → Option (Calling σ θ κ ι)
  | .step a calls =>
      match C.actor a with
      | none =>
          if calls = [] then (M.step S.state a).map fun s => { S with state := s } else none
      | some x =>
          if S.due x = [] then
            (M.step S.state a).bind fun s =>
              if calls ∈ C.after S.state a s then
                some { S with state := s, due := Function.update S.due x calls }
              else none
          else none
  | .call x =>
      match S.due x with
      | [] => none
      | c :: calls =>
          (C.call x c S.held).map fun held =>
            { S with held := held, due := Function.update S.due x calls }
  | .signal x c =>
      if c ∈ C.handler then some { S with due := Function.update S.due x (c :: S.due x) } else none
  | .lose x => some { S with held := C.lose x S.held }

/-- No thread of the machine has made a call yet; others may have. -/
def Start (M : Machine σ α) (S : Calling σ θ κ ι) : Prop := M.start S.state ∧ ∀ x, S.due x = []

/-- The thread has a call to make, and no call of it returns. -/
def Stuck (C : Calls σ α θ κ ι) (S : Calling σ θ κ ι) (x : θ) : Prop :=
  (∀ c, C.call x c S.held = none) ∧ S.due x ≠ []

/-- Every step with its guard and effect. -/
inductive Transition (M : Machine σ α) (C : Calls σ α θ κ ι) (S : Calling σ θ κ ι) :
    CallingAct α θ κ → Calling σ θ κ ι → Prop
  | outside {a : α} {s : σ} (ha : C.actor a = none) (hs : M.step S.state a = some s) :
      Transition M C S (.step a []) { S with state := s }
  | own {a : α} {x : θ} {s : σ} {calls : List κ} (ha : C.actor a = some x) (hx : S.due x = [])
      (hs : M.step S.state a = some s) (hcalls : calls ∈ C.after S.state a s) :
      Transition M C S (.step a calls)
        { S with state := s, due := Function.update S.due x calls }
  | call {x : θ} {c : κ} {calls : List κ} {held : ι} (hx : S.due x = c :: calls)
      (hc : C.call x c S.held = some held) :
      Transition M C S (.call x) { S with held := held, due := Function.update S.due x calls }
  | signal (x : θ) {c : κ} (hc : c ∈ C.handler) :
      Transition M C S (.signal x c) { S with due := Function.update S.due x (c :: S.due x) }
  | lose (x : θ) : Transition M C S (.lose x) { S with held := C.lose x S.held }

variable {M : Machine σ α} {C : Calls σ α θ κ ι} {S T : Calling σ θ κ ι} {b : CallingAct α θ κ}

theorem step_cases (h : S.step M C b = some T) : Transition M C S b T := by
  cases b with
  | step a calls =>
    cases ha : C.actor a with
    | none =>
      simp only [step, ha, Option.ite_none_right_eq_some] at h
      obtain ⟨rfl, h⟩ := h
      obtain ⟨s, hs, rfl⟩ := Option.map_eq_some_iff.mp h
      exact .outside ha hs
    | some x =>
      simp only [step, ha, Option.ite_none_right_eq_some] at h
      obtain ⟨hx, h⟩ := h
      obtain ⟨s, hs, h⟩ := Option.bind_eq_some_iff.mp h
      simp only [Option.ite_none_right_eq_some, Option.some.injEq] at h
      obtain ⟨hcalls, rfl⟩ := h
      exact .own ha hx hs hcalls
  | call x =>
    cases hx : S.due x with
    | nil => simp [step, hx] at h
    | cons c calls =>
      simp only [step, hx] at h
      obtain ⟨held, hc, rfl⟩ := Option.map_eq_some_iff.mp h
      exact .call hx hc
  | signal x c =>
    simp only [step, Option.ite_none_right_eq_some, Option.some.injEq] at h
    obtain ⟨hc, rfl⟩ := h
    exact .signal x hc
  | lose x =>
    obtain rfl := Option.some.inj h
    exact .lose x

theorem step_own {a : α} {x : θ} {s : σ} {calls : List κ} (ha : C.actor a = some x)
    (hx : S.due x = []) (hs : M.step S.state a = some s) (hcalls : calls ∈ C.after S.state a s) :
    S.step M C (.step a calls) =
      some { S with state := s, due := Function.update S.due x calls } := by
  simp [step, ha, hx, hs, hcalls]

theorem step_call {x : θ} {c : κ} {calls : List κ} {held : ι} (hx : S.due x = c :: calls)
    (hc : C.call x c S.held = some held) :
    S.step M C (.call x) =
      some { S with held := held, due := Function.update S.due x calls } := by
  simp [step, hx, hc]

end Calling

namespace Machine

variable {σ α θ κ ι : Type*} [DecidableEq θ] [DecidableEq κ]

/-- The machine with the calls of its threads. -/
def withCalls (M : Machine σ α) (C : Calls σ α θ κ ι) :
    Machine (Calling σ θ κ ι) (CallingAct α θ κ) where
  start := Calling.Start M
  step := Calling.step M C

variable {M : Machine σ α} {C : Calls σ α θ κ ι} {S T : Calling σ θ κ ι}
  {tr : List (CallingAct α θ κ)}

open Calling CallingAct

/-- Calls leave the state of the machine alone. -/
theorem Run.state (h : (M.withCalls C).Run S tr T) : M.Run S.state (actions tr) T.state := by
  induction h with
  | nil => exact .nil _
  | snoc _ hstep ih =>
    rw [actions_append]
    cases Calling.step_cases hstep with
    | outside ha hs => exact ih.snoc hs
    | own ha hx hs => exact ih.snoc hs
    | call | signal | lose => simpa using ih

theorem Reaches.state (h : (M.withCalls C).Reaches tr T) : M.Reaches (actions tr) T.state := by
  obtain ⟨S, hS, hrun⟩ := h
  exact ⟨S.state, hS.1, hrun.state⟩

/-- What does not depend on the calls holds everywhere if it does without them. -/
theorem Run.everywhere_actions_iff {G : List α → σ → Prop} (h : (M.withCalls C).Run S tr T) :
    ((M.withCalls C).Everywhere S tr fun tr' U => G (actions tr') U.state) ↔
      M.Everywhere S.state (actions tr) G := by
  induction h with
  | nil =>
    have hnil {N : Machine σ α} {s : σ} {G : List α → σ → Prop} :
        N.Everywhere s [] G ↔ G [] s := by
      refine ⟨fun hg => hg [] s List.prefix_rfl (.nil s), fun hg tr' u hpre hrun => ?_⟩
      obtain rfl := List.prefix_nil.mp hpre
      rwa [hrun.functional (.nil s)]
    rw [actions_nil, hnil]
    refine ⟨fun hg => hg [] _ List.prefix_rfl (.nil _), fun hg tr' u hpre hrun => ?_⟩
    obtain rfl := List.prefix_nil.mp hpre
    rwa [hrun.functional (.nil _)]
  | snoc hrun hstep ih =>
    rw [hrun.everywhere_snoc hstep, ih]
    cases Calling.step_cases hstep with
    | outside ha hs | own ha hx hs =>
      rw [actions_append, actions_step, hrun.state.everywhere_snoc hs]
    | call | signal | lose =>
      simp only [actions_append, actions_call, actions_signal, actions_lose, List.append_nil,
        and_iff_left_iff_imp]
      exact fun hg => hg _ _ List.prefix_rfl hrun.state

/-- What holds of a call behind the step or the signal that leads to it, and is kept by the steps
of the other threads, holds as long as the call is to be made. -/
theorem Reaches.due {P : θ → κ → σ → Prop} (h : (M.withCalls C).Reaches tr T)
    (after : ∀ {s a t x calls c}, C.actor a = some x → M.step s a = some t →
      calls ∈ C.after s a t → c ∈ calls → P x c t)
    (handler : ∀ {s x c}, c ∈ C.handler → P x c s)
    (others : ∀ {s a t x c}, C.actor a ≠ some x → M.step s a = some t → P x c s → P x c t) :
    ∀ x, ∀ c ∈ T.due x, P x c T.state := by
  refine h.invariant (I := fun S => ∀ x, ∀ c ∈ S.due x, P x c S.state) ?_ ?_
  · rintro S hS x c hc
    rw [hS.2 x] at hc
    cases hc
  · rintro S b T ih hstep x c hc
    cases Calling.step_cases hstep with
    | outside ha hs => exact others (by simp [ha]) hs (ih x c hc)
    | @own a y s calls ha hy hs hcalls =>
      by_cases hx : x = y
      · subst hx
        exact after ha hs hcalls (by simpa using hc)
      · refine others (fun hax => hx ?_) hs (ih x c (by simpa [hx] using hc))
        exact Option.some.inj (hax.symm.trans ha)
    | @call y c' calls held hy hcall =>
      by_cases hx : x = y
      · subst hx
        exact ih x c (by rw [hy]; exact List.mem_cons_of_mem _ (by simpa using hc))
      · exact ih x c (by simpa [hx] using hc)
    | @signal y d hd =>
      by_cases hx : x = y
      · subst hx
        simp only [Function.update_self, List.mem_cons] at hc
        rcases hc with rfl | hc
        · exact handler hd
        · exact ih x c hc
      · exact ih x c (by simpa [hx] using hc)
    | lose => exact ih x c hc

/-- A thread that is stuck stays where it is when no call and no loss frees the lock for it. -/
theorem Run.stuck {x : θ} (h : (M.withCalls C).Run S tr T) (hs : S.Stuck C x)
    (call : ∀ {y d l l'}, (∀ c, C.call x c l = none) → C.call y d l = some l' →
      ∀ c, C.call x c l' = none)
    (lose : ∀ {y l}, (∀ c, C.call x c l = none) → ∀ c, C.call x c (C.lose y l) = none) :
    T.Stuck C x ∧ S.due x <:+ T.due x := by
  induction h with
  | nil => exact ⟨hs, List.suffix_rfl⟩
  | snoc _ hstep ih =>
    obtain ⟨⟨hno, hdue⟩, hsuffix⟩ := ih
    cases Calling.step_cases hstep with
    | outside ha hs' => exact ⟨⟨hno, hdue⟩, hsuffix⟩
    | @own a y s calls ha hy hs' hcalls =>
      have hx : x ≠ y := fun hx => hdue (hx ▸ hy)
      exact ⟨⟨hno, by simpa [hx] using hdue⟩, by simpa [hx] using hsuffix⟩
    | @call y d calls held hy hd =>
      have hx : x ≠ y := by
        rintro rfl
        simp [hno] at hd
      exact ⟨⟨call hno hd, by simpa [hx] using hdue⟩, by simpa [hx] using hsuffix⟩
    | @signal y d hd =>
      by_cases hx : x = y
      · subst hx
        exact ⟨⟨hno, by simp⟩, by simpa using hsuffix.trans (List.suffix_cons ..)⟩
      · exact ⟨⟨hno, by simpa [hx] using hdue⟩, by simpa [hx] using hsuffix⟩
    | lose y => exact ⟨⟨lose hno, hdue⟩, hsuffix⟩

section Passing

variable {l : ι} (hcall : ∀ x c, C.call x c l = some l)

include hcall

/-- A thread whose calls give the lock back can make them. -/
theorem exists_run_calls (hS : S.held = l) (x : θ) :
    ∃ tr T, (M.withCalls C).Run S tr T ∧ actions tr = [] ∧ T.state = S.state ∧
      T.held = l ∧ T.due x = [] := by
  generalize hdue : S.due x = calls
  induction calls generalizing S with
  | nil => exact ⟨[], S, .nil S, rfl, rfl, hS, hdue⟩
  | cons c calls ih =>
    have hstep : (M.withCalls C).step S (.call x) =
        some { S with held := l, due := Function.update S.due x calls } :=
      Calling.step_call (M := M) hdue (by rw [hS, hcall])
    obtain ⟨tr, T, hrun, hacts, hstate, hheld, hx⟩ :=
      ih (S := { S with held := l, due := Function.update S.due x calls }) rfl (by simp)
    exact ⟨.call x :: tr, T, (Run.single hstep).append hrun, hacts, hstate, hheld, hx⟩

/-- A run of the machine can be had with its calls. -/
theorem Run.withCalls (hafter : ∀ {s a t}, M.step s a = some t → C.after s a t ≠ [])
    (hS : S.held = l) {t : σ} {as : List α} (h : M.Run S.state as t) :
    ∃ tr T, (M.withCalls C).Run S tr T ∧ actions tr = as ∧ T.state = t ∧ T.held = l := by
  induction h with
  | nil => exact ⟨[], S, .nil S, rfl, rfl, hS⟩
  | @snoc u v as a hrun hstep ih =>
    obtain ⟨tr, T, hT, hacts, rfl, hheld⟩ := ih
    cases ha : C.actor a with
    | none =>
      have hlast : (M.withCalls C).step T (.step a []) = some { T with state := v } := by
        simp [Machine.withCalls, Calling.step, ha, hstep]
      exact ⟨tr ++ [.step a []], { T with state := v }, hT.snoc hlast, by simp [hacts], rfl, hheld⟩
    | some x =>
      obtain ⟨tr', U, hU, hnone, hstate, hheld', hx⟩ := exists_run_calls (M := M) hcall hheld x
      rw [← hstate] at hstep
      obtain ⟨calls, hcalls⟩ := List.exists_mem_of_ne_nil _ (hafter hstep)
      have hlast : (M.withCalls C).step U (.step a calls) =
          some { U with state := v, due := Function.update U.due x calls } :=
        Calling.step_own ha hx hstep hcalls
      exact ⟨tr ++ tr' ++ [.step a calls], { U with state := v, due := _ },
        (hT.append hU).snoc hlast, by simp [hacts, hnone], rfl, hheld'⟩

end Passing

end Machine
end EpollThreads.Foundations
