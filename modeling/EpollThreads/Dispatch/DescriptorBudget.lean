import EpollThreads.Dispatch.ClientLimit
import EpollThreads.Dispatch.Delivery

/-!
# How many connection descriptors are open

The client limit bounds the registered connections only. Besides these a
descriptor can be in the hands of the listener or of a worker inside `iClose`,
one each, and every failed registration has left one open for good.
-/

namespace EpollThreads.Dispatch

open Foundations Events

namespace Worker

theorem ncard_holds_le (x : Worker) : {fd | x.Holds fd}.ncard ≤ x.registered.card + 1 := by
  cases hc : x.pc.closing with
  | none =>
    have hset : {fd | x.Holds fd} = (x.registered : Set Fd) := by
      ext fd
      exact holds_iff hc
    rw [hset, Set.ncard_coe_finset]
    exact Nat.le_succ _
  | some p =>
    have hsub : {fd | x.Holds fd} ⊆ ((Insert.insert p.1.fd x.registered : Finset Fd) : Set Fd) := by
      rintro fd (hmem | ⟨ev, deleted, hcl, rfl⟩)
      · exact Finset.mem_insert_of_mem hmem
      · rw [hc, Option.some.injEq] at hcl
        subst hcl
        exact Finset.mem_insert_self ..
    have hle := Set.ncard_le_ncard hsub (Finset.finite_toSet _)
    rw [Set.ncard_coe_finset] at hle
    exact hle.trans (Finset.card_insert_le ..)

end Worker

theorem ListenerPc.ncard_holds_le (l : ListenerPc) : {fd | l.Holds fd}.ncard ≤ 1 := by
  have hsub : ∃ fd₀, {fd | l.Holds fd} ⊆ {fd₀} := by
    cases l with
    | assigning sockfd pc =>
      refine ⟨sockfd, fun fd hfd => ?_⟩
      cases pc with
      | increment => exact hfd.elim
      | _ => exact Eq.symm hfd
    | _ => exact ⟨0, fun _ hfd => hfd.elim⟩
  obtain ⟨fd₀, hsub⟩ := hsub
  have hle := Set.ncard_le_ncard hsub
  rwa [Set.ncard_singleton] at hle

namespace Server

variable {n : ℕ} {maxclients : ℤ} {s t : Server n}

def openFds (s : Server n) : Set Fd := {fd | ∃ c, s.files fd = some c}

/-- The failed calls of `i_epoll_add` in a run. -/
def failedAdds (tr : List (Action n)) : ℕ := tr.count (.assign (.add false))

/-- Only finitely many descriptors are open, and one is lost for every failed call. -/
theorem ncard_lost {tr : List (Action n)} (h : (serverMachine n maxclients).Reaches tr s) :
    s.openFds.Finite ∧ {fd | s.custody.Lost fd}.ncard = failedAdds tr := by
  refine h.history (Q := fun tr s => s.openFds.Finite ∧
    {fd | s.custody.Lost fd}.ncard = failedAdds tr) (fun {s} (hs : Start s) => ?_) ?_
  · have hno : s.openFds = ∅ := by
      ext fd
      simp [openFds, hs.files fd]
    refine ⟨by simp [hno], ?_⟩
    have hlost : {fd | s.custody.Lost fd} ⊆ s.openFds := fun fd hfd => hfd.1
    rw [hno, Set.subset_empty_iff] at hlost
    rw [hlost, Set.ncard_empty]
    rfl
  · rintro tr s a t hr ⟨hfin, hcard⟩ hstep
    have ho := Owned.of_reaches hr
    have ht := step_cases hstep
    rw [failedAdds, List.count_append, List.count_singleton]
    by_cases ha : a = .assign (.add false)
    · subst ha
      obtain ⟨fd, hl⟩ := ho.lose ht
      refine ⟨hfin.subset fun fd hfd => (hl.live fd).mp hfd, ?_⟩
      rw [hl.ncard_lost ho.custody hfin, hcard]
      rfl
    · have hm := ho.move ht ha
      refine ⟨hm.finite hfin, ?_⟩
      have hlost : {fd | t.custody.Lost fd} = {fd | s.custody.Lost fd} := by
        ext fd
        exact hm.lost_iff
      rw [hlost, hcard]
      simp [failedAdds, ha]

/-- The open connection descriptors of the process: a failed registration costs one for good,
and apart from these there are at most the clients the configuration allows, one for each
worker and one for the listener. -/
theorem open_descriptors (hm : 0 ≤ maxclients) {tr : List (Action n)}
    (h : (serverMachine n maxclients).Reaches tr s) :
    s.openFds.Finite ∧ failedAdds tr ≤ s.openFds.ncard ∧
      (s.openFds.ncard : ℤ) ≤ maxclients + n + 1 + failedAdds tr := by
  obtain ⟨hfin, hlost⟩ := ncard_lost h
  have hlive : s.openFds.ncard =
      ∑ o, {fd | s.custody.held o fd}.ncard + {fd | s.custody.Lost fd}.ncard :=
    (Owned.of_reaches h).custody.ncard_live hfin
  rw [hlost, Fintype.sum_option] at hlive
  refine ⟨hfin, by omega, ?_⟩
  have hlistener : {fd | s.custody.held none fd}.ncard ≤ 1 := s.listener.ncard_holds_le
  have hworkers : ∑ w, {fd | s.custody.held (some w) fd}.ncard ≤
      ∑ w, ((s.workers w).registered.card + 1) :=
    Finset.sum_le_sum fun w _ => (s.workers w).ncard_holds_le
  have hsum : ((∑ w, ((s.workers w).registered.card + 1) : ℕ) : ℤ) = s.registeredTotal + n := by
    simp [registeredTotal, Finset.sum_add_distrib]
  have htotal := registeredTotal_le_maxclients hm h
  omega

theorem open_descriptors_addFail :
    ∃ s : Server 2, (serverMachine 2 10).Reaches
        ([.listenerTest, .accept 7] ++ scan ++ [.assign (.add false)]) s ∧ s.openFds.Finite ∧
      1 ≤ s.openFds.ncard ∧ (s.openFds.ncard : ℤ) ≤ 10 + (2 : ℕ) + 1 + 1 := by
  have h := Machine.Reaches.of_isSome (M := serverMachine 2 10) (start_initial (n := 2))
    ([.listenerTest, .accept 7] ++ scan ++ [.assign (.add false)]) (by decide)
  exact ⟨_, h, open_descriptors (by decide) h⟩

end Server
end EpollThreads.Dispatch
