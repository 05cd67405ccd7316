import EpollThreads.Foundations.Observation
import EpollThreads.Listening.Listen

/-!
# How long `select` may wait

`tv` is set once, in front of the loop, and every `select` leaves the rest of the
time in it for the next one.
-/

namespace EpollThreads.Listening

open Foundations Events

/-- The last argument of the calls of `select`. -/
def givenTimeval : ListenCall → ListenOp → Option Timeval
  | c, .select _ => some c.tv
  | _, _ => none

/-- What the calls of `select` came back with. -/
def selects (tr : List ListenOp) : List SelectOutcome :=
  tr.filterMap fun
    | .select o => some o
    | _ => none

def oneSecond : Timeval := ⟨1, 0⟩

section Calls

variable {tr : List ListenOp}

theorem selects_append (tr tr' : List ListenOp) :
    selects (tr ++ tr') = selects tr ++ selects tr' := List.filterMap_append

theorem tv_step {c c' : ListenCall} {op : ListenOp} (h : c.step op = some c') :
    (∃ o, op = .select o ∧ c'.tv = o.left) ∨
      (givenTimeval c op = none ∧ selects [op] = [] ∧ c'.tv = c.tv) := by
  cases op with
  | select o =>
    simp only [ListenCall.step, Option.ite_none_right_eq_some, Option.some.injEq] at h
    obtain ⟨-, rfl⟩ := h
    exact Or.inl ⟨o, rfl, rfl⟩
  | test | fcntl =>
    simp only [ListenCall.step, Option.ite_none_right_eq_some, Option.some.injEq] at h
    obtain ⟨-, rfl⟩ := h
    exact Or.inr ⟨rfl, rfl, rfl⟩
  | accept o =>
    simp only [ListenCall.step, Option.ite_none_right_eq_some, Option.some.injEq] at h
    obtain ⟨-, rfl⟩ := h
    cases o <;> exact Or.inr ⟨rfl, rfl, rfl⟩
  | log =>
    simp only [ListenCall.step] at h
    split at h <;> simp only [Option.some.injEq, reduceCtorEq] at h <;> subst h <;>
      exact Or.inr ⟨rfl, rfl, rfl⟩

theorem given_eq {sockfd : ℤ} {c : ListenCall} (h : listenMachine.Run (.enter sockfd) tr c) :
    listenMachine.record givenTimeval (.enter sockfd) tr ++ [c.tv] =
      oneSecond :: (selects tr).map SelectOutcome.left := by
  induction h with
  | nil => rfl
  | @snoc c c' tr op hrun hstep ih =>
    rw [hrun.record_snoc, selects_append, List.map_append, ← List.cons_append, ← ih]
    rcases tv_step hstep with ⟨o, rfl, htv⟩ | ⟨hgiven, hselects, htv⟩
    · rw [htv]
      rfl
    · simp [hgiven, hselects, htv]

end Calls

/-- Every `select` of a call is given one second exactly if each of them but the last leaves
one second, which a timeout does not. -/
theorem select_timeout_iff {sockfd : ℤ} {tr : List ListenOp} {c : ListenCall}
    (h : listenMachine.Run (.enter sockfd) tr c) :
    (∀ tv ∈ listenMachine.record givenTimeval (.enter sockfd) tr, tv = oneSecond) ↔
      ∀ o ∈ (selects tr).dropLast, o.left = oneSecond := by
  have hgiven := congrArg List.dropLast (given_eq h)
  rw [List.dropLast_concat] at hgiven
  rw [hgiven]
  cases selects tr with
  | nil => simp
  | cons o os =>
    rw [List.map_cons, List.dropLast_cons_cons, ← List.map_cons, ← List.map_dropLast]
    simp only [List.forall_mem_cons, List.forall_mem_map, true_and]

theorem select_timeout_iff_ready :
    let tr : List ListenOp := [.test false, .select (.ready true oneSecond),
      .accept (.fail EINTR), .test false, .select (.ready true ⟨0, 400000⟩),
      .accept (.connected 7)]
    (selects tr).length = 2 ∧
      ∀ tv ∈ listenMachine.record givenTimeval (.enter (-1)) tr, tv = oneSecond :=
  ⟨rfl, (select_timeout_iff (.of_isSome _ rfl)).mpr (by decide)⟩

/-- After a second without a client `select` no longer waits. -/
theorem not_select_timeout :
    ¬∀ (sockfd : ℤ) (tr : List ListenOp) (c : ListenCall),
      listenMachine.Run (.enter sockfd) tr c →
        ∀ tv ∈ listenMachine.record givenTimeval (.enter sockfd) tr, tv = oneSecond := by
  intro h
  have htv := h (-1) [.test false, .select .timeout, .test false, .select .timeout] _
    (.of_isSome _ rfl) ⟨0, 0⟩ (by decide)
  exact absurd htv (by decide)

end EpollThreads.Listening
