import EpollThreads.Shutdown.Handler
import Mathlib.Tactic

/-!
# The handler and the mutex of the log

The handler logs, and the mutex of the log is not recursive. A thread that holds it when the
signal comes, or that has kept it after a message that was filtered, waits for itself.
-/

namespace EpollThreads.Shutdown

open Foundations Logging

/-- Inside the first call of the handler. Past the comparison the level is known to pass. -/
def NoticePc (verbosity : ℤ) : LogPc → Prop
  | .outside => False
  | .locking level | .testing level => level = MY_NOTICE
  | .formatting _ | .raw _ | .unlocking => verbosity ≤ levelBits MY_NOTICE

namespace HandlerPc

/-- From the return of the first call to the test of `daemonize`. -/
def Between : HandlerPc → Prop
  | .flag | .check | .delete | .clear | .daemon => True
  | _ => False

/-- At a lock of the mutex. -/
def Locks (pc : HandlerPc) : Prop := ∃ level, pc.log = .locking level

end HandlerPc

def Action.thread {T : Type*} : Action T → T
  | .construct t | .call t _ | .log t | .signal t _ | .handler t => t

namespace Process

/-- The handler waits for the mutex on a thread that holds it. -/
def Blocked {T : Type*} (s : Process T) (t : T) : Prop :=
  s.owner = some t ∧ ∃ f ∈ (s.frames t).head?, f.pc.Locks

def SelfBlocked {T : Type*} (s : Process T) : Prop := ∃ t, s.Blocked t

/-- No signal comes to a thread that holds the mutex, and a handler whose first message was
filtered has no second one. -/
def FreeToLog {T : Type*} (verbosity : ℤ) (daemonize : Bool) (s : Process T) : Action T → Prop
  | .signal t _ => s.owner ≠ some t
  | .handler t => ∀ f ∈ (s.frames t).head?, f.pc = .daemon →
      daemonize = true → verbosity ≤ levelBits MY_NOTICE
  | _ => True

/-- What the position of a thread says about the owner of the mutex. -/
structure Settled {T : Type*} (verbosity : ℤ) (s : Process T) (t : T) : Prop where
  holds : (s.current t).Holding → s.owner = some t
  notice : ∀ f ∈ (s.frames t).head?, ∀ p, f.pc = .notice p → NoticePc verbosity p
  between : ∀ f ∈ (s.frames t).head?, f.pc.Between →
    (s.owner = some t ↔ levelBits MY_NOTICE < verbosity)

end Process

section Moves

variable {T : Type*} {verbosity : ℤ} {t t' : T} {p p' : LogPc} {owner owner' : Option T}

theorem LogMove.holds (h : LogMove verbosity t p owner p' owner')
    (ho : p.Holding → owner = some t) (hp : p'.Holding) : owner' = some t := by
  cases h with
  | lock => rfl
  | pass | format | raw => exact ho trivial
  | filter | unlock => exact hp.elim

theorem LogMove.other (h : LogMove verbosity t p owner p' owner')
    (ho : p.Holding → owner = some t) (ht : t' ≠ t) : owner' = some t' ↔ owner = some t' := by
  cases h with
  | lock => simp [Ne.symm ht]
  | filter | pass | format | raw => rfl
  | unlock => simp [ho trivial, Ne.symm ht]

theorem LogMove.not_locking (h : LogMove verbosity t p owner p' owner') {level : ℤ} :
    p' ≠ .locking level := by
  cases h <;> simp

theorem LogMove.notice (h : LogMove verbosity t p owner p' owner') (hp : NoticePc verbosity p)
    (hp' : p' ≠ .outside) : NoticePc verbosity p' := by
  cases h with
  | lock => exact hp
  | filter | unlock => exact absurd rfl hp'
  | pass hl =>
    have hlevel : _ = MY_NOTICE := hp
    exact hlevel ▸ hl
  | format | raw => exact hp

/-- The mutex is kept exactly if the message was filtered. -/
theorem LogMove.returned (h : LogMove verbosity t p owner p' owner')
    (hp : NoticePc verbosity p) (ho : p.Holding → owner = some t) (hp' : p' = .outside) :
    owner' = some t ↔ levelBits MY_NOTICE < verbosity := by
  cases h with
  | filter hl =>
    have hlevel : _ = MY_NOTICE := hp
    exact iff_of_true (ho trivial) (hlevel ▸ hl)
  | unlock => exact iff_of_false (by simp) (not_lt.mpr hp)
  | _ => cases hp'

end Moves

namespace Process

variable {T : Type*} [DecidableEq T] {verbosity : ℤ} {daemonize : Bool} {s s' u : Process T}
  {t : T} {f : Frame} {fs : List Frame}

omit [DecidableEq T] in
theorem Settled.congr (h : s.Settled verbosity t) (hf : s'.frames t = s.frames t)
    (hb : s'.base t = s.base t) (ho : s'.owner = some t ↔ s.owner = some t) :
    s'.Settled verbosity t := by
  have hc : s'.current t = s.current t := by simp only [current, hf, hb]
  refine ⟨fun hp => ho.mpr (h.holds (hc ▸ hp)), ?_, ?_⟩
  · rw [hf]; exact h.notice
  · rw [hf]; exact fun f hmem hpc => ho.trans (h.between f hmem hpc)

omit [DecidableEq T] in
theorem blocked_congr (hf : s'.frames t = s.frames t)
    (ho : s'.owner = some t ↔ s.owner = some t) : s'.Blocked t ↔ s.Blocked t := by
  rw [Blocked, Blocked, hf, ho]

theorem setCurrent_other {t' : T} {p : LogPc} (ht : t' ≠ t) :
    (s.setCurrent t p).frames t' = s.frames t' ∧ (s.setCurrent t p).base t' = s.base t' := by
  unfold setCurrent
  cases s.frames t with
  | nil => simp [ht]
  | cons f fs => simp [setFrames, ht]

theorem Transition.other {a : Action T} (ht : Transition verbosity daemonize s a s')
    (h : s.Settled verbosity a.thread) (hne : t ≠ a.thread) :
    s'.frames t = s.frames t ∧ s'.base t = s.base t ∧
      (s'.owner = some t ↔ s.owner = some t) := by
  cases ht with
  | construct hf hc => exact ⟨rfl, rfl, Iff.rfl⟩
  | @call t' level hf hb =>
    have hne' : t ≠ t' := hne
    simp [hne']
  | log hm =>
    obtain ⟨hf, hb⟩ := s.setCurrent_other hne
    exact ⟨hf, hb, hm.other h.holds hne⟩
  | @signal t' sig hsig =>
    have hne' : t ≠ t' := hne
    simp [setFrames, hne']
  | @handler t' f fs u pc hf hm =>
    have hne' : t ≠ t' := hne
    simp [setFrames, hne', hm.frames, hm.base, hm.owner]

theorem setLog_log {pc : HandlerPc} (p : LogPc) (h : pc.log ≠ .outside) :
    (pc.setLog p).log = p := by
  rcases HandlerPc.setLog_cases p h with ⟨-, hp⟩ | ⟨-, hp⟩ <;> rw [hp] <;> split_ifs with ho <;>
    simp [HandlerPc.log, ho]

theorem current_setCurrent {p : LogPc} (h : s.current t ≠ .outside) :
    (s.setCurrent t p).current t = p := by
  unfold current at h
  unfold setCurrent
  cases hf : s.frames t with
  | nil => simp [current, hf]
  | cons f fs =>
    rw [hf] at h
    simpa [current, setFrames] using setLog_log p h

theorem head_setCurrent {p : LogPc} {g : Frame} (hg : g ∈ ((s.setCurrent t p).frames t).head?) :
    ∃ f ∈ (s.frames t).head?, f.pc.log = s.current t ∧ g.pc = f.pc.setLog p := by
  unfold setCurrent at hg
  unfold current
  cases hf : s.frames t with
  | nil => simp [hf] at hg
  | cons f fs =>
    rw [hf] at hg
    simp only [setFrames, Function.update_self, List.head?_cons, Option.mem_some_iff] at hg
    exact ⟨f, by simp, rfl, by rw [← hg]⟩

theorem Settled.log (h : s.Settled verbosity t) {p : LogPc} {owner : Option T}
    (hm : LogMove verbosity t (s.current t) s.owner p owner) :
    Settled verbosity { s.setCurrent t p with owner := owner } t := by
  have hcur := s.current_setCurrent hm.ne_outside (p := p)
  refine ⟨fun hp => hm.holds h.holds (hcur ▸ hp), fun g hg q hq => ?_, fun g hg hq => ?_⟩
  all_goals
    obtain ⟨f, hf, hlog, hpc⟩ := head_setCurrent hg
    have hcases := HandlerPc.setLog_cases p (hlog ▸ hm.ne_outside)
    rw [← hpc, hlog] at hcases
    rcases hcases with ⟨hold, hnew⟩ | ⟨-, hnew⟩
  · have hnotice := h.notice f hf _ hold
    by_cases hp : p = .outside
    · simp [hnew, hp] at hq
    · rw [hnew, if_neg hp] at hq
      exact HandlerPc.notice.inj hq ▸ hm.notice hnotice hp
  · rw [hnew] at hq
    split_ifs at hq
  · have hnotice := h.notice f hf _ hold
    by_cases hp : p = .outside
    · exact hm.returned hnotice h.holds hp
    · simp [hnew, hp, HandlerPc.Between] at hq
  · rw [hnew] at hq
    split_ifs at hq <;> exact hq.elim

theorem settled_signal {sig : Signal} :
    (s.setFrames t (⟨sig, .notice (.locking MY_NOTICE)⟩ :: s.frames t)).Settled verbosity t := by
  refine ⟨fun hp => ?_, fun g hg q hq => ?_, fun g hg hq => ?_⟩
  · simp [current, setFrames, HandlerPc.log, LogPc.Holding] at hp
  · simp only [setFrames, Function.update_self, List.head?_cons, Option.mem_some_iff] at hg
    subst hg
    exact HandlerPc.notice.inj hq ▸ rfl
  · simp only [setFrames, Function.update_self, List.head?_cons, Option.mem_some_iff] at hg
    subst hg
    exact hq.elim

theorem Settled.handler (h : s.Settled verbosity t) (hf : s.frames t = f :: fs) {pc : HandlerPc}
    (hm : HandlerMove daemonize s f.pc u pc) :
    (u.setFrames t ({ f with pc := pc } :: fs)).Settled verbosity t := by
  have hbetween : f.pc.Between → (s.owner = some t ↔ levelBits MY_NOTICE < verbosity) :=
    h.between f (by simp [hf])
  refine ⟨fun hp => ?_, fun g hg q hq => ?_, fun g hg hq => ?_⟩
  · simp only [current, setFrames, Function.update_self] at hp
    generalize f.pc = q at hm
    cases hm <;> exact hp.elim
  · simp only [setFrames, Function.update_self, List.head?_cons, Option.mem_some_iff] at hg
    subst hg
    generalize f.pc = q' at hm
    cases hm <;> simp at hq
  · simp only [setFrames, Function.update_self, List.head?_cons, Option.mem_some_iff] at hg
    subst hg
    change u.owner = some t ↔ _
    rw [hm.owner]
    apply hbetween
    generalize f.pc = q' at hm
    cases hm with
    | remove | stay | unlink | sleep | exit => exact hq.elim
    | _ => trivial

theorem Settled.step {a : Action T} (h : ∀ t, s.Settled verbosity t)
    (ht : Transition verbosity daemonize s a s') (t : T) : s'.Settled verbosity t := by
  by_cases hne : t = a.thread
  · have hown := h t
    subst hne
    cases ht with
    | construct => exact ⟨hown.holds, hown.notice, hown.between⟩
    | @call t' level hf hb =>
      refine ⟨fun hp => ?_, ?_, ?_⟩
      · simp [current, Action.thread, hf, LogPc.Holding] at hp
      · exact hown.notice
      · exact hown.between
    | log hm => exact hown.log hm
    | signal => exact settled_signal
    | handler hf hm => exact hown.handler hf hm
  · obtain ⟨hf, hb, ho⟩ := ht.other (h _) hne
    exact (h t).congr hf hb ho

omit [DecidableEq T] in
theorem HandlerMove.not_locks {pc pc' : HandlerPc} (hm : HandlerMove daemonize s pc u pc') :
    ¬pc.Locks := by
  rintro ⟨level, hlog⟩
  cases hm <;> simp [HandlerPc.log] at hlog

omit [DecidableEq T] in
/-- The second message is the only lock that an instruction outside `myepollLog` leads to. -/
theorem HandlerMove.locks_iff {pc pc' : HandlerPc} (hm : HandlerMove daemonize s pc u pc') :
    pc'.Locks ↔ pc = .daemon ∧ daemonize = true := by
  cases hm with
  | remove h => simp [HandlerPc.Locks, HandlerPc.log, h]
  | stay h => simp [HandlerPc.Locks, HandlerPc.log, h]
  | _ => simp [HandlerPc.Locks, HandlerPc.log]

omit [DecidableEq T] in
theorem blocked_cons (hf : s.frames t = f :: fs) :
    s.Blocked t ↔ s.owner = some t ∧ f.pc.Locks := by
  simp [Blocked, hf]

/-- Nobody can help a thread that waits for itself. -/
theorem Blocked.step {a : Action T} (hset : ∀ t, s.Settled verbosity t)
    (ht : Transition verbosity daemonize s a s') (h : s.Blocked t) : s'.Blocked t := by
  by_cases hne : t = a.thread
  · subst hne
    obtain ⟨howner, f, hmem, level, hlog⟩ := h
    cases ht with
    | construct hf | call hf => simp [Action.thread, hf] at hmem
    | @log t p owner hm =>
      have hcur : s.current t = .locking level := by
        unfold current
        cases hf : s.frames t with
        | nil => simp [Action.thread, hf] at hmem
        | cons g gs =>
          simp only [Action.thread, hf, List.head?_cons, Option.mem_some_iff] at hmem
          exact hmem ▸ hlog
      rw [hcur, show s.owner = some t from howner] at hm
      cases hm
    | signal hsig =>
      exact (blocked_cons (Function.update_self ..)).mpr ⟨howner, MY_NOTICE, rfl⟩
    | @handler t g gs u pc hf hm =>
      simp only [Action.thread, hf, List.head?_cons, Option.mem_some_iff] at hmem
      exact absurd ⟨level, hmem ▸ hlog⟩ hm.not_locks
  · obtain ⟨hf, -, ho⟩ := ht.other (hset _) hne
    exact (blocked_congr hf ho).mpr h

/-- The thread that takes the step waits for itself afterwards exactly if it was not free to. -/
theorem blocked_thread {a : Action T} (hset : s.Settled verbosity a.thread)
    (hnot : ¬s.Blocked a.thread) (ht : Transition verbosity daemonize s a s') :
    ¬s'.Blocked a.thread ↔ s.FreeToLog verbosity daemonize a := by
  cases ht with
  | construct | call => exact iff_of_true hnot trivial
  | @log t p owner hm =>
    refine iff_of_true ?_ trivial
    rintro ⟨-, g, hg, level, hlog⟩
    obtain ⟨f, hf, hold, hpc⟩ := head_setCurrent hg
    rw [hpc, setLog_log p (hold ▸ hm.ne_outside)] at hlog
    exact hm.not_locking hlog
  | @signal t sig hsig =>
    rw [not_congr (blocked_cons (Function.update_self ..))]
    simp [FreeToLog, setFrames, Action.thread, HandlerPc.Locks, HandlerPc.log]
  | @handler t f fs u pc hf hm =>
    have hbetween : f.pc = .daemon → (s.owner = some t ↔ levelBits MY_NOTICE < verbosity) :=
      fun hpc => hset.between f (by simp [Action.thread, hf]) (by rw [hpc]; trivial)
    have hfree : s.FreeToLog verbosity daemonize (.handler t) ↔
        (f.pc = .daemon → daemonize = true → verbosity ≤ levelBits MY_NOTICE) := by
      simp [FreeToLog, hf]
    rw [not_congr (blocked_cons (Function.update_self ..)), hfree]
    simp only [setFrames, Action.thread, hm.owner, hm.locks_iff, ← not_lt]
    tauto

theorem selfBlocked_step {a : Action T} (hset : ∀ t, s.Settled verbosity t)
    (hnot : ¬s.SelfBlocked) (ht : Transition verbosity daemonize s a s') :
    ¬s'.SelfBlocked ↔ s.FreeToLog verbosity daemonize a := by
  rw [← blocked_thread (hset _) (fun h => hnot ⟨_, h⟩) ht]
  refine not_congr ⟨fun ⟨t, h⟩ => ?_, fun h => ⟨_, h⟩⟩
  by_cases hne : t = a.thread
  · exact hne ▸ h
  · obtain ⟨hf, -, ho⟩ := ht.other (hset _) hne
    exact absurd ⟨t, (blocked_congr hf ho).mp h⟩ hnot

omit [DecidableEq T] in
theorem settled_initial {owner : Option T} (t : T) : (initial owner).Settled verbosity t := by
  refine ⟨fun hp => hp.elim, ?_, ?_⟩ <;> simp [initial]

open Classical in
/-- In every interleaving the handler waits on no thread for a mutex that this thread holds, if
and only if each signal comes to a thread that does not hold it and no second message follows
a first one that was filtered. -/
theorem not_selfBlocked_iff {tr : List (Action T)}
    (h : (handlerMachine T verbosity daemonize).Reaches tr s) :
    ¬s.SelfBlocked ↔ ((handlerMachine T verbosity daemonize).restrict
      fun s a _ => s.FreeToLog verbosity daemonize a).Reaches tr s := by
  have settled {tr : List (Action T)} {s : Process T}
      (h : (handlerMachine T verbosity daemonize).Reaches tr s) (t : T) :
      s.Settled verbosity t :=
    h.invariant (fun ⟨_, hs⟩ => hs ▸ settled_initial)
      (fun hset hstep => Settled.step hset (step_cases hstep)) t
  refine h.good_iff_restrict (P := fun s a _ => s.FreeToLog verbosity daemonize a)
    (Q := fun s => ¬s.SelfBlocked) ?_ ?_ ?_
  · rintro s ⟨owner, rfl⟩ ⟨t, -, f, hf, -⟩
    simp [initial] at hf
  · rintro tr s a s' hreach hstep hnot ⟨t, hblocked⟩
    exact hnot ⟨t, hblocked.step (settled hreach) (step_cases hstep)⟩
  · intro tr s a s' hreach hnot hstep
    exact selfBlocked_step (settled hreach) hnot (step_cases hstep)

open Classical in
theorem not_selfBlocked_iff_terminated :
    ∃ s, (handlerMachine Unit MY_NOTICE true).Reaches terminated s ∧ ¬s.SelfBlocked ∧
      ((handlerMachine Unit MY_NOTICE true).restrict
        fun s a _ => s.FreeToLog MY_NOTICE true a).Reaches terminated s := by
  have h := Machine.Reaches.of_isSome (M := handlerMachine Unit MY_NOTICE true)
    ⟨none, rfl⟩ terminated rfl
  have hnot : ¬(((handlerMachine Unit MY_NOTICE true).exec (initial none) terminated).get
      rfl).SelfBlocked := by
    rintro ⟨t, ho, -⟩
    exact absurd ho (by decide +revert)
  exact ⟨_, h, hnot, (not_selfBlocked_iff h).mp hnot⟩

/-- Interrupted between the lock and the comparison of the level. -/
def interruptedLogging : List (Action Unit) :=
  [.call () MY_NOTICE, .log (), .signal () .SIGTERM]

theorem not_never_selfBlocked :
    ¬∀ (tr : List (Action Unit)) (s : Process Unit),
      (handlerMachine Unit MY_NOTICE false).Reaches tr s → ¬s.SelfBlocked := by
  intro hall
  have h := Machine.Reaches.of_isSome (M := handlerMachine Unit MY_NOTICE false)
    ⟨none, rfl⟩ interruptedLogging rfl
  exact hall _ _ h ⟨(), rfl, ⟨.SIGTERM, .notice (.locking MY_NOTICE)⟩, rfl, MY_NOTICE, rfl⟩

end Process
end EpollThreads.Shutdown
