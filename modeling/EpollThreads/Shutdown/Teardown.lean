import EpollThreads.Dispatch.Transition
import EpollThreads.Shutdown.Handler

/-!
# Shutting down while the threads run

The threads are detached and nobody waits for them. A run of `sigtermHandler` on any of them
sets `shutdown` and then destroys the `ListenThread` and every `TaskThread`; the thread it
interrupted never continues, and the others go on until `_exit`.
-/

namespace EpollThreads.Shutdown

open Foundations Dispatch

inductive Object (n : ℕ)
  | listenThread
  | taskThread (w : Fin n)
  deriving DecidableEq, Repr

/-- Where the handler is: before the assignment of `shutdown`, before the destructor of the
listener, before a round of the loop in `DelTaskThread`, and past the deletion. -/
inductive TeardownPc
  | flag
  | listenThread
  | taskThread (i : ℕ)
  | sleep
  | exited
  deriving DecidableEq, Repr

/-- The server and the run of the handler with the thread it is on. -/
structure Teardown (n : ℕ) where
  server : Server n
  handler : Option (Thread n × TeardownPc)

inductive TeardownAct (n : ℕ)
  | thread (a : Dispatch.Action n)
  | signal (x : Thread n) (sig : Signal)
  | handler
  deriving DecidableEq, Repr

section Server

variable {n : ℕ}

/-- The thread has been started and has not returned. -/
def Started (s : Server n) : Thread n → Prop
  | .main => True
  | .listener => s.listener ≠ .returned
  | .worker w => (s.workers w).pc ≠ .notStarted ∧ (s.workers w).pc ≠ .returned

/-- The step uses a member of the object. The test of `shutdown` uses none. -/
def Touches (s : Server n) : Dispatch.Action n → Object n → Prop
  | .listenFails, .listenThread | .accept _, .listenThread | .assign _, .listenThread => True
  | .assign _, .taskThread w =>
      ∃ sockfd pc, s.listener = .assigning sockfd pc ∧ (w : ℕ) ∈ pc.accesses
  | .wait w _, .taskThread w' | .handle w _, .taskThread w' => w = w'
  | _, _ => False

/-- The thread has returned, or will next test `shutdown`. -/
def Idle (s : Server n) : Thread n → Prop
  | .main => True
  | .listener => s.listener = .test ∨ s.listener = .returned
  | .worker w => (s.workers w).pc = .test ∨ (s.workers w).pc = .notStarted ∨
      (s.workers w).pc = .returned

/-- The next step of the thread uses the object. -/
def Uses (s : Server n) : Thread n → Object n → Prop
  | .listener, .listenThread => ¬Idle s .listener
  | .listener, .taskThread w =>
      ∃ sockfd pc, s.listener = .assigning sockfd pc ∧ (w : ℕ) ∈ pc.accesses
  | .worker w, .taskThread w' => w = w' ∧ ¬Idle s (.worker w)
  | _, _ => False

instance (s : Server n) (x : Thread n) : Decidable (Started s x) := by
  cases x <;> unfold Started <;> infer_instance

instance (s : Server n) (x : Thread n) : Decidable (Idle s x) := by
  cases x <;> unfold Idle <;> infer_instance

end Server

/-- A destroyed object is one whose destructor has begun. -/
def TeardownPc.Destroyed {n : ℕ} : TeardownPc → Object n → Prop
  | .flag, _ | .listenThread, _ => False
  | .taskThread _, .listenThread => True
  | .taskThread i, .taskThread w => w < i
  | .sleep, _ | .exited, _ => True

namespace Teardown

variable {n : ℕ}

/-- The thread was not interrupted by the handler, and the process has not exited. -/
def Runs (s : Teardown n) (x : Thread n) : Prop := ∀ r ∈ s.handler, r.1 ≠ x ∧ r.2 ≠ .exited

instance (s : Teardown n) (x : Thread n) : Decidable (s.Runs x) := by
  unfold Runs; infer_instance

def Destroyed (s : Teardown n) (o : Object n) : Prop := ∃ r ∈ s.handler, r.2.Destroyed o

/-- One instruction of the handler on the server's objects. -/
def handle (s : Server n) : TeardownPc → Option (Server n × TeardownPc)
  | .flag => some ({ s with shutdown := true }, .listenThread)
  | .listenThread => some (s, .taskThread 0)
  | .taskThread i => some (s, if i < n then .taskThread (i + 1) else .sleep)
  | .sleep => some (s, .exited)
  | .exited => none

def step (maxclients : ℤ) (s : Teardown n) : TeardownAct n → Option (Teardown n)
  | .thread a =>
      (actor a).bind fun x =>
        if s.Runs x then (s.server.step maxclients a).map fun u => { s with server := u } else none
  | .signal x _ =>
      if s.handler = none ∧ Started s.server x then some { s with handler := some (x, .flag) }
      else none
  | .handler =>
      s.handler.bind fun r => (handle s.server r.2).map fun u => ⟨u.1, some (r.1, u.2)⟩

/-- No thread but the handler's is about to use an object that has been destroyed. -/
def NoUse (s : Teardown n) : Prop := ∀ o, s.Destroyed o → ∀ x, s.Runs x → ¬Uses s.server x o

/-- An object is destroyed only when its own thread is the handler's or idle. -/
def Vacated (s : Teardown n) : TeardownAct n → Prop
  | .handler => ∀ r ∈ s.handler,
      (r.2 = .listenThread → r.1 = .listener ∨ Idle s.server .listener) ∧
      ∀ w : Fin n, r.2 = .taskThread w → r.1 = .worker w ∨ Idle s.server (.worker w)
  | _ => True

end Teardown

section Server

variable {n : ℕ} {maxclients : ℤ} {s t : Server n}

theorem uses_of_touches {a : Dispatch.Action n} {o : Object n}
    (ht : s.Transition maxclients a t) (h : Touches s a o) :
    ∃ x, actor a = some x ∧ Uses s x o := by
  cases ht with
  | listenFails hl | accept hl =>
    cases o with
    | listenThread => exact ⟨.listener, rfl, by simp [Uses, Idle, hl]⟩
    | taskThread w => exact h.elim
  | read hl | refuse hl | addOk hl | addFail hl | increment hl =>
    cases o with
    | listenThread => exact ⟨.listener, rfl, by simp [Uses, Idle, hl]⟩
    | taskThread w => exact ⟨.listener, rfl, h⟩
  | wait hpc | quiet hpc | modOk hpc | delOk hpc | delFail hpc | close hpc | dec hpc =>
    cases o with
    | listenThread => exact h.elim
    | taskThread w => exact ⟨.worker _, rfl, h, by simp [Idle, hpc]⟩
  | shutdown | listenerTest | workerTest => exact h.elim

theorem idle_of_uses {x : Thread n} {o : Object n} (h : Uses s x o) : ¬Idle s x := by
  cases x with
  | main => exact h.elim
  | listener =>
    cases o with
    | listenThread => exact h
    | taskThread w =>
      obtain ⟨sockfd, pc, hl, -⟩ := h
      simp [Idle, hl]
  | worker w =>
    cases o with
    | listenThread => exact h.elim
    | taskThread w' => exact h.2

theorem shutdown_of_transition {a : Dispatch.Action n} (ht : s.Transition maxclients a t)
    (hs : s.shutdown = true) : t.shutdown = true := by
  have hclose (fd : Fd) : (s.closeFd fd).shutdown = s.shutdown := by
    unfold Server.closeFd
    split <;> rfl
  cases ht with
  | shutdown => rfl
  | refuse | close => exact (hclose _).trans hs
  | _ => exact hs

theorem Idle.step {a : Dispatch.Action n} {x : Thread n} (h : Idle s x)
    (ht : s.Transition maxclients a t) (hs : s.shutdown = true) : Idle t x := by
  cases x with
  | main => trivial
  | listener =>
    rcases Server.listener_of_transition ht with ha | hsame
    · cases ht with
      | listenerTest => exact .inr (by simp [hs])
      | listenFails hl | accept hl | read hl | refuse hl | addOk hl | addFail hl | increment hl =>
        simp [Idle, hl] at h
      | _ => simp [actor] at ha
    · simpa only [Idle, hsame] using h
  | worker w =>
    rcases Server.pc_of_transition ht w with ha | hsame
    · cases ht with
      | @workerTest w' =>
        simp only [actor, Option.some.injEq, Thread.worker.injEq] at ha
        subst ha
        exact .inr (.inr (by simp [hs]))
      | wait hpc | quiet hpc | modOk hpc | delOk hpc | delFail hpc | close hpc | dec hpc =>
        simp only [actor, Option.some.injEq, Thread.worker.injEq] at ha
        subst ha
        simp [Idle, hpc] at h
      | _ => simp [actor] at ha
    · simpa only [Idle, hsame] using h

end Server

namespace Teardown

variable {n : ℕ} {maxclients : ℤ} {s t : Teardown n}

/-- Every step with its guard and effect. -/
inductive Transition (maxclients : ℤ) (s : Teardown n) : TeardownAct n → Teardown n → Prop
  | thread {a : Dispatch.Action n} {x : Thread n} {u : Server n} (ha : actor a = some x)
      (hr : s.Runs x) (hu : s.server.Transition maxclients a u) :
      Transition maxclients s (.thread a) { s with server := u }
  | signal {x : Thread n} {sig : Signal} (hh : s.handler = none) (hx : Started s.server x) :
      Transition maxclients s (.signal x sig) { s with handler := some (x, .flag) }
  | flag {x : Thread n} (hh : s.handler = some (x, .flag)) :
      Transition maxclients s .handler
        ⟨{ s.server with shutdown := true }, some (x, .listenThread)⟩
  | listenThread {x : Thread n} (hh : s.handler = some (x, .listenThread)) :
      Transition maxclients s .handler ⟨s.server, some (x, .taskThread 0)⟩
  | taskThread {x : Thread n} {i : ℕ} (hh : s.handler = some (x, .taskThread i)) (hi : i < n) :
      Transition maxclients s .handler ⟨s.server, some (x, .taskThread (i + 1))⟩
  | cleared {x : Thread n} {i : ℕ} (hh : s.handler = some (x, .taskThread i)) (hi : n ≤ i) :
      Transition maxclients s .handler ⟨s.server, some (x, .sleep)⟩
  | exit {x : Thread n} (hh : s.handler = some (x, .sleep)) :
      Transition maxclients s .handler ⟨s.server, some (x, .exited)⟩

theorem step_cases {a : TeardownAct n} (h : s.step maxclients a = some t) :
    Transition maxclients s a t := by
  cases a with
  | thread a =>
    obtain ⟨x, ha, h⟩ := Option.bind_eq_some_iff.mp h
    simp only [Option.ite_none_right_eq_some, Option.map_eq_some_iff] at h
    obtain ⟨hr, u, hu, rfl⟩ := h
    exact .thread ha hr (Server.step_cases hu)
  | signal x sig =>
    simp only [step, Option.ite_none_right_eq_some, Option.some.injEq] at h
    obtain ⟨⟨hh, hx⟩, rfl⟩ := h
    exact .signal hh hx
  | handler =>
    obtain ⟨⟨x, pc⟩, hh, h⟩ := Option.bind_eq_some_iff.mp h
    obtain ⟨u, hu, rfl⟩ := Option.map_eq_some_iff.mp h
    cases pc with
    | flag => exact Option.some.inj hu ▸ .flag hh
    | listenThread => exact Option.some.inj hu ▸ .listenThread hh
    | taskThread i =>
      obtain rfl := Option.some.inj hu
      by_cases hi : i < n
      · simpa only [if_pos hi] using Transition.taskThread hh hi
      · simpa only [if_neg hi] using Transition.cleared hh (not_lt.mp hi)
    | sleep => exact Option.some.inj hu ▸ .exit hh
    | exited => cases hu

/-- Nothing is destroyed before `shutdown` is set. -/
def Flagged (s : Teardown n) : Prop := ∀ r ∈ s.handler, r.2 ≠ .flag → s.server.shutdown = true

theorem Flagged.step {a : TeardownAct n} (h : s.Flagged) (ht : Transition maxclients s a t) :
    t.Flagged := by
  cases ht with
  | thread ha hr hu => exact fun r hmem hpc => shutdown_of_transition hu (h r hmem hpc)
  | signal hh hx => simp [Flagged]
  | flag hh => exact fun _ _ _ => rfl
  | listenThread hh | taskThread hh | cleared hh | exit hh =>
    exact fun _ _ _ => h _ hh (by simp)

/-- The listener is the first to go, so it is enough to look at every thread's own object. -/
theorem noUse_iff :
    s.NoUse ↔ (s.Destroyed .listenThread → s.Runs .listener → Idle s.server .listener) ∧
      ∀ w, s.Destroyed (.taskThread w) → s.Runs (.worker w) → Idle s.server (.worker w) := by
  constructor
  · intro h
    exact ⟨fun hd hr => not_not.mp (h _ hd _ hr),
      fun w hd hr => not_not.mp fun hi => h _ hd _ hr ⟨rfl, hi⟩⟩
  · rintro ⟨hl, hw⟩ o hd x hr hu
    cases x with
    | main => exact hu.elim
    | listener =>
      have hlisten : s.Destroyed .listenThread := by
        obtain ⟨r, hmem, hr⟩ := hd
        refine ⟨r, hmem, ?_⟩
        cases hpc : r.2 <;> simp_all [TeardownPc.Destroyed]
      exact (idle_of_uses hu) (hl hlisten hr)
    | worker w =>
      cases o with
      | listenThread => exact hu
      | taskThread w' =>
        obtain ⟨rfl, hi⟩ := hu
        exact hi (hw w hd hr)

theorem noUse_iff_handler {x : Thread n} {pc : TeardownPc} (hh : s.handler = some (x, pc))
    (hpc : pc ≠ .exited) :
    s.NoUse ↔ (pc.Destroyed (n := n) .listenThread → x = .listener ∨ Idle s.server .listener) ∧
      ∀ w, pc.Destroyed (.taskThread w) → x = .worker w ∨ Idle s.server (.worker w) := by
  simp [noUse_iff, Destroyed, Runs, hh, hpc, or_iff_not_imp_left]

/-- Uses of destroyed objects begin with the destruction of one that was not vacated. -/
theorem noUse_step {a : TeardownAct n} (hf : s.Flagged) (hn : s.NoUse)
    (ht : Transition maxclients s a t) : t.NoUse ↔ s.Vacated a := by
  cases ht with
  | @thread a x u ha hr hu =>
    have hs {o : Object n} (hd : s.Destroyed o) : s.server.shutdown = true := by
      obtain ⟨r, hmem, hd⟩ := hd
      exact hf r hmem (by rintro hpc; simp [hpc, TeardownPc.Destroyed] at hd)
    obtain ⟨hl, hw⟩ := noUse_iff.mp hn
    refine iff_of_true (noUse_iff.mpr ⟨fun hd hr => ?_, fun w hd hr => ?_⟩) trivial
    · exact (hl hd hr).step hu (hs hd)
    · exact (hw w hd hr).step hu (hs hd)
  | signal hh hx =>
    rw [noUse_iff_handler rfl (by simp)]
    simp [Vacated, TeardownPc.Destroyed]
  | flag hh =>
    rw [noUse_iff_handler rfl (by simp)]
    simp [Vacated, TeardownPc.Destroyed, hh]
  | listenThread hh =>
    rw [noUse_iff_handler rfl (by simp)]
    simp [Vacated, TeardownPc.Destroyed, hh]
  | @taskThread x i hh hi =>
    obtain ⟨hl, hw⟩ := (noUse_iff_handler hh (by simp)).mp hn
    rw [noUse_iff_handler rfl (by simp)]
    have hvacated : s.Vacated .handler ↔
        ∀ w : Fin n, i = w → x = .worker w ∨ Idle s.server (.worker w) := by
      simp [Vacated, hh]
    rw [hvacated]
    constructor
    · rintro ⟨-, h⟩ w rfl
      exact h w (Nat.lt_succ_self _)
    · intro h
      refine ⟨fun _ => hl trivial, fun w hi => ?_⟩
      rcases Nat.lt_succ_iff_lt_or_eq.mp hi with hlt | heq
      · exact hw w hlt
      · exact h w heq.symm
  | @cleared x i hh hi =>
    -- the loop has ended, so every worker of the pool was destroyed before
    obtain ⟨hl, hw⟩ := (noUse_iff_handler hh (by simp)).mp hn
    refine iff_of_true ((noUse_iff_handler rfl (by simp)).mpr ?_) ?_
    · exact ⟨fun _ => hl trivial, fun w _ => hw w (w.isLt.trans_le hi)⟩
    · simp only [Vacated, hh, Option.mem_some_iff, forall_eq']
      exact ⟨by simp, fun w hi' => absurd (TeardownPc.taskThread.inj hi') (by omega)⟩
  | exit hh =>
    refine iff_of_true (fun o _ y hr => ?_) (by simp [Vacated, hh])
    simp [Runs] at hr

end Teardown

/-- The server after start-up, with one run of the handler. -/
def teardownMachine (n : ℕ) (maxclients : ℤ) : Machine (Teardown n) (TeardownAct n) where
  start s := s.server.Start ∧ s.handler = none
  step := Teardown.step maxclients

namespace Teardown

variable {n : ℕ} {maxclients : ℤ} {s : Teardown n}

instance (s : Teardown n) (a : TeardownAct n) : Decidable (s.Vacated a) := by
  cases a <;> unfold Vacated <;> infer_instance

/-- While every object is destroyed vacated, no thread but the handler's takes a step on one
that has been destroyed, and the destruction of one that is not vacated leaves such a thread
about to. -/
theorem no_use_after_destruction {tr : List (TeardownAct n)}
    (h : ((teardownMachine n maxclients).restrict fun s a _ => s.Vacated a).Reaches tr s) :
    (∀ a t, s.step maxclients (.thread a) = some t → ∀ o, s.Destroyed o → ¬Touches s.server a o) ∧
      ∀ a t, s.step maxclients a = some t → (t.NoUse ↔ s.Vacated a) := by
  have hinv : s.Flagged ∧ s.NoUse := by
    refine h.invariant (I := fun s => s.Flagged ∧ s.NoUse) ?_ ?_
    · rintro s ⟨-, hh⟩
      simp [Flagged, NoUse, Destroyed, hh]
    · rintro s a t ⟨hf, hn⟩ hstep
      obtain ⟨hstep, hvacated⟩ := Machine.restrict_step.mp hstep
      have ht := step_cases hstep
      exact ⟨hf.step ht, (noUse_step hf hn ht).mpr hvacated⟩
  refine ⟨fun a t hstep o hd htouch => ?_, fun a t hstep => ?_⟩
  · cases step_cases hstep with
    | @thread a x u ha hr hu =>
      obtain ⟨y, hy, huse⟩ := uses_of_touches hu htouch
      obtain rfl : x = y := Option.some.inj (ha.symm.trans hy)
      exact hinv.2 o hd x hr huse
  · exact noUse_step hinv.1 hinv.2 (step_cases hstep)

theorem no_use_after_destruction_idle :
    ∃ s, ((teardownMachine 2 10).restrict fun s a _ => s.Vacated a).Reaches
        [.signal .main .SIGTERM, .handler, .handler, .handler] s ∧
      s.Destroyed .listenThread ∧ ∀ a t, s.step 10 (.thread a) = some t →
        ¬Touches s.server a .listenThread := by
  have hd : (TeardownPc.taskThread 1).Destroyed (n := 2) .listenThread := trivial
  have h := Machine.Reaches.of_isSome
    (M := (teardownMachine 2 10).restrict fun s a _ => s.Vacated a)
    (s := ⟨.initial 2, none⟩) ⟨Server.start_initial, rfl⟩
    [.signal .main .SIGTERM, .handler, .handler, .handler] rfl
  exact ⟨_, h, ⟨_, rfl, hd⟩, fun a t ht =>
    (no_use_after_destruction h).1 a t ht .listenThread ⟨_, rfl, hd⟩⟩

/-- The listener is in `accept` while everything is destroyed. -/
theorem use_after_destruction :
    ¬∀ (tr : List (TeardownAct 2)) (s : Teardown 2), (teardownMachine 2 10).Reaches tr s →
      ∀ a t, s.step 10 (.thread a) = some t → ∀ o, s.Destroyed o → ¬Touches s.server a o := by
  intro hall
  have h := Machine.Reaches.of_isSome (M := teardownMachine 2 10)
    (s := ⟨.initial 2, none⟩) ⟨Server.start_initial, rfl⟩
    [.thread .listenerTest, .signal .main .SIGTERM, .handler, .handler, .handler, .handler,
      .handler] rfl
  exact hall _ _ h (.accept 7) _ rfl .listenThread ⟨_, rfl, trivial⟩ trivial

end Teardown
end EpollThreads.Shutdown
