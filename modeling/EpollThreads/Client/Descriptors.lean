import EpollThreads.Foundations.Interrupts
import EpollThreads.Shutdown.Handler
import Mathlib.Data.List.Nodup
import Mathlib.Tactic

/-!
# The descriptors of the test client

`main` of the test client constructs, connects and registers one `Test` after
the other while their threads already run. A signal ends the process through
`sigtermHandler`, on whatever thread it interrupts; the handler is installed for
three signals with an empty mask, so that its runs may be nested on one thread
and go on side by side on several. `epoll_create()` and `socket()` give out any
number that is not open, so also one that was closed before.

What a thread still does with its object after a handler has deleted it is not
cut off here: its `sockfd` is a local variable, and a second `delete` finds in
the object what the first one left there.
-/

namespace EpollThreads.Client

open Foundations
open Shutdown (Signal)

/-- Where the thread of a `Test` is in `i_epoll_wait`: `closing` and `removed` are the two
calls of `iClose`. -/
inductive TestPc
  | notStarted
  | test
  | wait
  | closing
  | removed
  | returned
  deriving DecidableEq, Repr

/-- The members of a `Test` that its destructor closes, `~Test` before `~iEpoll`. -/
inductive Member
  | m_sockfd
  | m_epfd
  deriving DecidableEq, Repr

structure TestObject where
  m_sockfd : ℤ
  m_epfd : ℤ
  registered : Bool
  pc : TestPc
  deriving DecidableEq, Repr

def TestObject.member (x : TestObject) : Member → ℤ
  | .m_sockfd => x.m_sockfd
  | .m_epfd => x.m_epfd

/-- The loop of `main`, with its index. -/
inductive MainPc
  | construct (i : ℕ)
  | connect (i : ℕ)
  | add (i : ℕ)
  deriving DecidableEq, Repr

def MainPc.index : MainPc → ℕ
  | .construct i => i
  | .connect i => i
  | .add i => i

inductive Thread
  | main
  | test (i : ℕ)
  deriving DecidableEq, Repr

/-- Where a run of `sigtermHandler` is, from its loop on: `check` is the loop test and the read
of `g_Test[j]`, `delete` has that object as its `pTest` and is at the `close` of a member, and
`clear` is `g_Test.clear()`. -/
inductive HandlerPc
  | check (j : ℕ)
  | delete (m : Member) (j i : ℕ)
  | clear
  | cleared
  deriving DecidableEq, Repr

/-- Behind the `close` of a member. -/
def HandlerPc.next (j i : ℕ) : Member → HandlerPc
  | .m_sockfd => .delete .m_epfd j i
  | .m_epfd => .check (j + 1)

abbrev HandlerRun := Thread × ℕ

/-- `files` tells for which member of which object a number is open, and `frames` where the
runs of the handler are. -/
structure ClientState where
  files : ℤ → Option (Member × ℕ)
  tests : ℕ → TestObject
  g_Test : List ℕ
  main : MainPc
  shutdown : Bool
  frames : Interrupts Thread Signal HandlerPc

/-- `signal` is the entry of the handler up to its loop. -/
inductive Action
  | construct (started : Bool) (epfd : ℤ)
  | connect (fd : ℤ)
  | add (ok : Bool)
  | loop (i : ℕ)
  | wait (i : ℕ)
  | event (i : ℕ) (nRet : ℤ)
  | remove (i : ℕ)
  | close (i : ℕ) (fd : ℤ)
  | signal (t : Thread) (sig : Signal)
  | check (r : HandlerRun)
  | destroy (r : HandlerRun) (m : Member) (i : ℕ) (fd : ℤ)
  | clear (r : HandlerRun)
  deriving DecidableEq, Repr

namespace ClientState

/-- No handler runs on this thread. -/
def Free (s : ClientState) (t : Thread) : Prop := s.frames.on t = []

instance (s : ClientState) (t : Thread) : Decidable (s.Free t) :=
  inferInstanceAs (Decidable (s.frames.on t = []))

/-- The thread has begun and not returned. -/
def Alive (s : ClientState) : Thread → Prop
  | .main => True
  | .test i => (s.tests i).pc ≠ .notStarted ∧ (s.tests i).pc ≠ .returned

instance (s : ClientState) : (t : Thread) → Decidable (s.Alive t)
  | .main => inferInstanceAs (Decidable True)
  | .test i => inferInstanceAs
      (Decidable ((s.tests i).pc ≠ .notStarted ∧ (s.tests i).pc ≠ .returned))

def goOn (s : ClientState) (r : HandlerRun) (pc : HandlerPc) : ClientState :=
  { s with frames := s.frames.goOn r pc }

def setTest (s : ClientState) (i : ℕ) (x : TestObject) : ClientState :=
  { s with tests := Function.update s.tests i x }

/-- `close(fd)`: with the number goes the registration of whatever socket it stands for. -/
def closeFd (s : ClientState) (fd : ℤ) : ClientState :=
  { s with
    files := Function.update s.files fd none
    tests := fun j =>
      if s.files fd = some (.m_sockfd, j) then { s.tests j with registered := false }
      else s.tests j }

/-- A number that `epoll_create()` or `socket()` may return; -1 is a failure. -/
def Available (s : ClientState) (fd : ℤ) : Prop := fd = -1 ∨ (0 ≤ fd ∧ s.files fd = none)

instance (s : ClientState) (fd : ℤ) : Decidable (s.Available fd) :=
  inferInstanceAs (Decidable (fd = -1 ∨ (0 ≤ fd ∧ s.files fd = none)))

def opened (s : ClientState) (fd : ℤ) (m : Member) (i : ℕ) : ℤ → Option (Member × ℕ) :=
  if fd = -1 then s.files else Function.update s.files fd (some (m, i))

def step (threads : ℤ) (s : ClientState) : Action → Option ClientState
  | .construct started epfd =>
      match s.main with
      | .construct i =>
          if s.Free .main ∧ (i : ℤ) < threads ∧ s.Available epfd then
            some { s.setTest i ⟨-1, epfd, false, if started then .test else .notStarted⟩ with
              main := .connect i
              g_Test := s.g_Test ++ [i]
              files := s.opened epfd .m_epfd i }
          else none
      | _ => none
  | .connect fd =>
      match s.main with
      | .connect i =>
          if s.Free .main ∧ s.Available fd then
            some { s.setTest i { s.tests i with m_sockfd := fd } with
              main := .add i
              files := s.opened fd .m_sockfd i }
          else none
      | _ => none
  | .add ok =>
      match s.main with
      | .add i =>
          if s.Free .main ∧ (ok = true → s.files (s.tests i).m_sockfd = some (.m_sockfd, i)) then
            some { s.setTest i { s.tests i with registered := ok } with main := .construct (i + 1) }
          else none
      | _ => none
  | .loop i =>
      if s.Free (.test i) ∧ (s.tests i).pc = .test then
        some (s.setTest i { s.tests i with pc := if s.shutdown then .returned else .wait })
      else none
  | .wait i =>
      if s.Free (.test i) ∧ (s.tests i).pc = .wait then
        some (s.setTest i { s.tests i with pc := .test })
      else none
  | .event i nRet =>
      if s.Free (.test i) ∧ (s.tests i).pc = .wait ∧ (s.tests i).registered = true then
        some (s.setTest i { s.tests i with pc := if nRet < 0 then .closing else .test })
      else none
  | .remove i =>
      if s.Free (.test i) ∧ (s.tests i).pc = .closing then
        some (s.setTest i { s.tests i with registered := false, pc := .removed })
      else none
  | .close i fd =>
      if s.Free (.test i) ∧ (s.tests i).pc = .removed ∧ fd = (s.tests i).m_sockfd then
        some ((s.setTest i { s.tests i with pc := .test }).closeFd fd)
      else none
  | .signal t sig =>
      if s.Alive t ∧ sig ∉ s.frames.served t then
        some { s with frames := s.frames.enter t sig (.check 0), shutdown := true }
      else none
  | .check r =>
      match s.frames.run r with
      | some (.check j) =>
          if s.frames.Innermost r then
            some (s.goOn r (match s.g_Test[j]? with
              | some i => .delete .m_sockfd j i
              | none => .clear))
          else none
      | _ => none
  | .destroy r m i fd =>
      match s.frames.run r with
      | some (.delete m' j pTest) =>
          if s.frames.Innermost r ∧ m = m' ∧ i = pTest ∧ fd = (s.tests i).member m then
            some ((s.closeFd fd).goOn r (.next j i m))
          else none
      | _ => none
  | .clear r =>
      match s.frames.run r with
      | some .clear =>
          if s.frames.Innermost r then some ({ s with g_Test := [] }.goOn r .cleared) else none
      | _ => none

/-- `main` before its loop. -/
structure Start (s : ClientState) : Prop where
  files : ∀ fd, s.files fd = none
  main : s.main = .construct 0
  g_Test : s.g_Test = []
  tests : ∀ i, s.tests i = ⟨-1, -1, false, .notStarted⟩
  frames : s.frames = .none

def initial : ClientState where
  files _ := none
  tests _ := ⟨-1, -1, false, .notStarted⟩
  g_Test := []
  main := .construct 0
  shutdown := false
  frames := .none

/-- Every step of the client with its effect; which thread is free to take it is left out. -/
inductive Transition (threads : ℤ) (s : ClientState) : Action → ClientState → Prop
  | construct {started : Bool} {epfd : ℤ} {i : ℕ} (hmain : s.main = .construct i)
      (hfd : s.Available epfd) :
      Transition threads s (.construct started epfd)
        { s.setTest i ⟨-1, epfd, false, if started then .test else .notStarted⟩ with
          main := .connect i
          g_Test := s.g_Test ++ [i]
          files := s.opened epfd .m_epfd i }
  | connect {fd : ℤ} {i : ℕ} (hmain : s.main = .connect i) (hfd : s.Available fd) :
      Transition threads s (.connect fd)
        { s.setTest i { s.tests i with m_sockfd := fd } with
          main := .add i
          files := s.opened fd .m_sockfd i }
  | add {ok : Bool} {i : ℕ} (hmain : s.main = .add i)
      (hok : ok = true → s.files (s.tests i).m_sockfd = some (.m_sockfd, i)) :
      Transition threads s (.add ok)
        { s.setTest i { s.tests i with registered := ok } with main := .construct (i + 1) }
  | loop {i : ℕ} (hpc : (s.tests i).pc = .test) :
      Transition threads s (.loop i)
        (s.setTest i { s.tests i with pc := if s.shutdown then .returned else .wait })
  | wait {i : ℕ} (hpc : (s.tests i).pc = .wait) :
      Transition threads s (.wait i) (s.setTest i { s.tests i with pc := .test })
  | event {i : ℕ} {nRet : ℤ} (hpc : (s.tests i).pc = .wait)
      (hreg : (s.tests i).registered = true) :
      Transition threads s (.event i nRet)
        (s.setTest i { s.tests i with pc := if nRet < 0 then .closing else .test })
  | remove {i : ℕ} (hpc : (s.tests i).pc = .closing) :
      Transition threads s (.remove i)
        (s.setTest i { s.tests i with registered := false, pc := .removed })
  | close {i : ℕ} (hpc : (s.tests i).pc = .removed) :
      Transition threads s (.close i (s.tests i).m_sockfd)
        ((s.setTest i { s.tests i with pc := .test }).closeFd (s.tests i).m_sockfd)
  | signal {t : Thread} {sig : Signal} :
      Transition threads s (.signal t sig)
        { s with frames := s.frames.enter t sig (.check 0), shutdown := true }
  | found {r : HandlerRun} {j i : ℕ} (h : s.frames.run r = some (.check j))
      (hi : s.g_Test[j]? = some i) :
      Transition threads s (.check r) (s.goOn r (.delete .m_sockfd j i))
  | done {r : HandlerRun} {j : ℕ} (h : s.frames.run r = some (.check j))
      (hi : s.g_Test[j]? = none) :
      Transition threads s (.check r) (s.goOn r .clear)
  | destroy {r : HandlerRun} {m : Member} {j i : ℕ} (h : s.frames.run r = some (.delete m j i)) :
      Transition threads s (.destroy r m i ((s.tests i).member m))
        ((s.closeFd ((s.tests i).member m)).goOn r (.next j i m))
  | clear {r : HandlerRun} (h : s.frames.run r = some .clear) :
      Transition threads s (.clear r) ({ s with g_Test := [] }.goOn r .cleared)

theorem step_cases {threads : ℤ} {s t : ClientState} {a : Action}
    (h : s.step threads a = some t) : Transition threads s a t := by
  cases a with
  | construct started epfd =>
    cases hmain : s.main <;>
      simp only [step, hmain, Option.ite_none_right_eq_some, Option.some.injEq, reduceCtorEq] at h
    obtain ⟨hg, rfl⟩ := h
    exact .construct hmain hg.2.2
  | connect fd =>
    cases hmain : s.main <;>
      simp only [step, hmain, Option.ite_none_right_eq_some, Option.some.injEq, reduceCtorEq] at h
    obtain ⟨hg, rfl⟩ := h
    exact .connect hmain hg.2
  | add ok =>
    cases hmain : s.main <;>
      simp only [step, hmain, Option.ite_none_right_eq_some, Option.some.injEq, reduceCtorEq] at h
    obtain ⟨hg, rfl⟩ := h
    exact .add hmain hg.2
  | loop i =>
    simp only [step, Option.ite_none_right_eq_some, Option.some.injEq] at h
    obtain ⟨hg, rfl⟩ := h
    exact .loop hg.2
  | wait i =>
    simp only [step, Option.ite_none_right_eq_some, Option.some.injEq] at h
    obtain ⟨hg, rfl⟩ := h
    exact .wait hg.2
  | event i nRet =>
    simp only [step, Option.ite_none_right_eq_some, Option.some.injEq] at h
    obtain ⟨hg, rfl⟩ := h
    exact .event hg.2.1 hg.2.2
  | remove i =>
    simp only [step, Option.ite_none_right_eq_some, Option.some.injEq] at h
    obtain ⟨hg, rfl⟩ := h
    exact .remove hg.2
  | close i fd =>
    simp only [step, Option.ite_none_right_eq_some, Option.some.injEq] at h
    obtain ⟨⟨-, hpc, rfl⟩, rfl⟩ := h
    exact .close hpc
  | signal t sig =>
    simp only [step, Option.ite_none_right_eq_some, Option.some.injEq] at h
    obtain ⟨-, rfl⟩ := h
    exact .signal
  | check r =>
    rcases hr : s.frames.run r with _ | ⟨j | ⟨m, j, i⟩ | _ | _⟩ <;>
      simp only [step, hr, Option.ite_none_right_eq_some, Option.some.injEq, reduceCtorEq] at h
    obtain ⟨-, rfl⟩ := h
    cases hi : s.g_Test[j]? with
    | some i => exact .found hr hi
    | none => exact .done hr hi
  | destroy r m i fd =>
    rcases hr : s.frames.run r with _ | ⟨j | ⟨m', j, pTest⟩ | _ | _⟩ <;>
      simp only [step, hr, Option.ite_none_right_eq_some, Option.some.injEq, reduceCtorEq] at h
    obtain ⟨⟨-, rfl, rfl, rfl⟩, rfl⟩ := h
    exact .destroy hr
  | clear r =>
    rcases hr : s.frames.run r with _ | ⟨j | ⟨m, j, i⟩ | _ | _⟩ <;>
      simp only [step, hr, Option.ite_none_right_eq_some, Option.some.injEq, reduceCtorEq] at h
    obtain ⟨-, rfl⟩ := h
    exact .clear hr

theorem start_initial : Start initial :=
  ⟨fun _ => rfl, rfl, rfl, fun _ => rfl, rfl⟩

end ClientState

def clientMachine (threads : ℤ) : Machine ClientState Action where
  start := ClientState.Start
  step := ClientState.step threads

end EpollThreads.Client
