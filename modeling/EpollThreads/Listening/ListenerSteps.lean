import EpollThreads.Dispatch.Server
import EpollThreads.Listening.HandOver

/-!
# `Listen` as the server takes it

The model of the server has two steps for a call of `iSocket::Listen`: one that
accepts and one that fails. A call that returns has done one of the two, however
often it waited and tried.
-/

namespace EpollThreads.Listening

open Foundations Dispatch

/-- The descriptors that a call has accepted. -/
def accepts (tr : List ListenOp) : List ℕ :=
  tr.filterMap fun
    | .accept (.connected fd) => some fd
    | _ => none

@[simp] theorem accepts_append (tr tr' : List ListenOp) :
    accepts (tr ++ tr') = accepts tr ++ accepts tr' := List.filterMap_append

@[simp] theorem accepts_connected (fd : ℕ) : accepts [.accept (.connected fd)] = [fd] := rfl

theorem accepts_snoc (tr : List ListenOp) {op : ListenOp}
    (h : ∀ fd, op ≠ .accept (.connected fd)) : accepts (tr ++ [op]) = accepts tr := by
  rw [accepts_append, List.append_right_eq_self]
  cases op with
  | accept o =>
    cases o with
    | fail errno => rfl
    | connected fd => exact absurd rfl (h fd)
  | _ => rfl

namespace ListenCall

/-- What a call has accepted so far, and what it returns then. -/
inductive Progress (c : ListenCall) : List ℕ → Prop
  | waiting (hconn : ¬c.pc.Connected) (hret : ∀ nRet, c.pc = .returned nRet → nRet = -1) :
      Progress c []
  | connected {fd : ℕ} (hfd : c.sockfd = fd) (hpc : c.pc.Connected ∨ c.pc = .returned 0) :
      Progress c [fd]

variable {sockfd : ℤ} {c c' : ListenCall} {op : ListenOp} {tr : List ListenOp}

/-- A step that accepts nothing, from a position where nothing is accepted. -/
theorem Progress.wait {l : List ℕ} (hp : Progress c l) (hconn : ¬c.pc.Connected)
    (hret : c.pc ≠ .returned 0) (h : Progress c' []) : Progress c' l := by
  cases hp with
  | waiting => exact h
  | connected _ hpc => exact absurd hpc (not_or.mpr ⟨hconn, hret⟩)

/-- A step behind `accept` keeps the socket. -/
theorem Progress.carry {l : List ℕ} (hp : Progress c l) (hconn : c.pc.Connected)
    (hfd : c'.sockfd = c.sockfd) (hpc : c'.pc.Connected ∨ c'.pc = .returned 0) :
    Progress c' l := by
  cases hp with
  | waiting hnot => exact absurd hconn hnot
  | connected hc => exact .connected (hfd.trans hc) hpc

theorem Progress.step (hp : Progress c (accepts tr)) (h : c.step op = some c') :
    Progress c' (accepts (tr ++ [op])) := by
  cases op with
  | test shutdown =>
    simp only [ListenCall.step, Option.ite_none_right_eq_some, Option.some.injEq] at h
    obtain ⟨hc, rfl⟩ := h
    rw [accepts_snoc tr (by simp)]
    refine hp.wait (by simp [hc]) (by simp [hc]) ?_
    cases shutdown <;> exact .waiting (by simp) (by simp)
  | select o =>
    simp only [ListenCall.step, Option.ite_none_right_eq_some, Option.some.injEq] at h
    obtain ⟨hc, rfl⟩ := h
    rw [accepts_snoc tr (by simp)]
    refine hp.wait (by simp [hc]) (by simp [hc]) ?_
    rcases o with _ | _ | ⟨_ | _, _⟩ <;>
      exact .waiting (by simp [afterSelect]) (by simp [afterSelect])
  | accept o =>
    simp only [ListenCall.step, Option.ite_none_right_eq_some, Option.some.injEq] at h
    obtain ⟨hc, rfl⟩ := h
    cases o with
    | fail errno =>
      rw [accepts_snoc tr (by simp)]
      refine hp.wait (by simp [hc]) (by simp [hc]) (.waiting ?_ ?_) <;>
        simp only [afterAccept] <;> split_ifs <;> simp
    | connected fd =>
      cases hp' : accepts tr with
      | nil =>
        rw [accepts_append, hp', accepts_connected, List.nil_append]
        exact .connected rfl (Or.inl trivial)
      | cons fd' l =>
        rw [hp'] at hp
        cases hp with
        | connected _ hpc => simp [hc] at hpc
  | fcntl ok =>
    simp only [ListenCall.step, Option.ite_none_right_eq_some, Option.some.injEq] at h
    obtain ⟨hc, rfl⟩ := h
    rw [accepts_snoc tr (by simp)]
    refine hp.carry (by simp [hc]) rfl (Or.inl ?_)
    cases ok <;> trivial
  | log =>
    rw [accepts_snoc tr (by simp)]
    cases hc : c.pc <;>
      simp only [ListenCall.step, hc, Option.some.injEq, reduceCtorEq] at h <;> subst h
    · exact hp.carry (by simp [hc]) rfl (Or.inl trivial)
    · exact hp.carry (by simp [hc]) rfl (Or.inr rfl)
    · exact hp.wait (by simp [hc]) (by simp [hc]) (.waiting (by simp) (by simp))

theorem progress (h : listenMachine.Run (.enter sockfd) tr c) : Progress c (accepts tr) := by
  induction h with
  | nil => exact .waiting (by simp [enter]) (by simp [enter])
  | snoc _ hstep ih => exact ih.step hstep

end ListenCall

/-- A call that returns 0 is the accepting step of the server with the descriptor it leaves in
`sockfd`, and any other the failing one. -/
theorem listen_returns {n : ℕ} {maxclients : ℤ} {s : Server n} {sockfd nRet : ℤ}
    {tr : List ListenOp} {c : ListenCall} (h : listenMachine.Run (.enter sockfd) tr c)
    (hret : c.pc = .returned nRet) (hs : s.listener = .listen)
    (hfree : ∀ fd ∈ accepts tr, s.files fd = none) :
    (nRet = 0 ∧ ∃ (fd : ℕ) (t : Server n), c.sockfd = fd ∧ accepts tr = [fd] ∧
        s.step maxclients (.accept fd) = some t ∧
        t.listener = .assigning fd (.begin n maxclients)) ∨
      (nRet = -1 ∧ accepts tr = [] ∧ ∃ t : Server n,
        s.step maxclients .listenFails = some t ∧ t.listener = .test) := by
  cases hl : accepts tr with
  | nil =>
    have hp := ListenCall.progress h
    rw [hl] at hp
    cases hp with
    | waiting _ hneg =>
      have hstep : s.step maxclients .listenFails = some { s with listener := .test } := if_pos hs
      exact Or.inr ⟨hneg nRet hret, rfl, _, hstep, rfl⟩
  | cons fd l =>
    have hp := ListenCall.progress h
    rw [hl] at hp hfree
    cases hp with
    | connected hfd hpc =>
      have hzero : nRet = 0 := by
        rcases hpc with hconn | hpc
        · rw [hret] at hconn
          exact hconn.elim
        · exact ListenPc.returned.inj (hret.symm.trans hpc)
      have hstep : s.step maxclients (.accept fd) = some _ :=
        if_pos ⟨hs, hfree fd List.mem_cons_self⟩
      exact Or.inl ⟨hzero, fd, _, hfd, rfl, hstep, rfl⟩

end EpollThreads.Listening
