import EpollThreads.Logging.LogMutex

/-!
# The signal handler

`sigtermHandler` is installed for three signals with an empty mask: while it
runs on a thread only its own signal is blocked there. Every thread has the code
that a signal may interrupt, of which only its position in `myepollLog` matters,
and a stack of runs of the handler, the innermost in front. The handler ends the
process and never returns, so what lies below the top of a stack stays where it is.
-/

namespace EpollThreads.Shutdown

open Foundations Logging

inductive Signal
  | SIGTERM
  | SIGHUP
  | SIGINT
  deriving DecidableEq, Repr

/-- Where a run of `sigtermHandler` is. `clear` lasts from the beginning of `delete` to the
assignment of NULL. -/
inductive HandlerPc
  | notice (p : LogPc)
  | flag
  | check
  | delete
  | clear
  | daemon
  | removing (p : LogPc)
  | unlink
  | sleep
  | exit
  deriving DecidableEq, Repr

structure Frame where
  sig : Signal
  pc : HandlerPc
  deriving DecidableEq, Repr

/-- `created` says that `main` has assigned `g_ListenThread`, `pointer` that it is not NULL,
and `destroyed` counts the runs of `~ListenThread`. -/
structure Process (T : Type*) where
  created : Bool
  pointer : Bool
  destroyed : ℕ
  shutdown : Bool
  exited : Bool
  owner : Option T
  base : T → LogPc
  frames : T → List Frame

inductive Action (T : Type*)
  | construct (t : T)
  | call (t : T) (level : ℤ)
  | log (t : T)
  | signal (t : T) (sig : Signal)
  | handler (t : T)
  deriving DecidableEq, Repr

namespace HandlerPc

/-- The position in `myepollLog`. -/
def log : HandlerPc → LogPc
  | .notice p => p
  | .removing p => p
  | _ => .outside

/-- The position when the one in `myepollLog` becomes `p`. -/
def setLog : HandlerPc → LogPc → HandlerPc
  | .notice _, .outside => .flag
  | .notice _, p => .notice p
  | .removing _, .outside => .unlink
  | .removing _, p => .removing p
  | pc, _ => pc

/-- Inside `myepollLog`; the rest of the handler begins when the call returns. -/
theorem setLog_cases {pc : HandlerPc} (p : LogPc) (h : pc.log ≠ .outside) :
    (pc = .notice pc.log ∧ pc.setLog p = if p = .outside then .flag else .notice p) ∨
      (pc = .removing pc.log ∧ pc.setLog p = if p = .outside then .unlink else .removing p) := by
  cases pc with
  | notice q => cases p <;> simp [log, setLog]
  | removing q => cases p <;> simp [log, setLog]
  | _ => exact absurd rfl h

end HandlerPc

section Log

variable {T : Type*} [DecidableEq T]

/-- The one step of `myepollLog` that can come next. -/
def nextLog (t : T) : LogPc → Option (LogAct T)
  | .outside => none
  | .locking _ => some (.lock t)
  | .testing _ => some (.test t)
  | .formatting _ => some (.format t)
  | .raw _ => some (.raw t)
  | .unlocking => some (.unlock t)

/-- This step, for one position and the mutex. -/
def logStep (verbosity : ℤ) (owner : Option T) (t : T) (p : LogPc) : Option (LogPc × Option T) :=
  (nextLog t p).bind fun a =>
    ((⟨owner, fun _ => p⟩ : LogState T).step verbosity a).map fun l => (l.pc t, l.owner)

/-- What it can do. -/
inductive LogMove (verbosity : ℤ) (t : T) : LogPc → Option T → LogPc → Option T → Prop
  | lock {level : ℤ} : LogMove verbosity t (.locking level) none (.testing level) (some t)
  | filter {level : ℤ} {owner : Option T} (h : levelBits level < verbosity) :
      LogMove verbosity t (.testing level) owner .outside owner
  | pass {level : ℤ} {owner : Option T} (h : verbosity ≤ levelBits level) :
      LogMove verbosity t (.testing level) owner (.formatting level) owner
  | format {level : ℤ} {owner : Option T} :
      LogMove verbosity t (.formatting level) owner (.raw level) owner
  | raw {level : ℤ} {owner : Option T} : LogMove verbosity t (.raw level) owner .unlocking owner
  | unlock {owner : Option T} : LogMove verbosity t .unlocking owner .outside none

theorem logStep_cases {verbosity : ℤ} {owner owner' : Option T} {t : T} {p p' : LogPc}
    (h : logStep verbosity owner t p = some (p', owner')) :
    LogMove verbosity t p owner p' owner' := by
  obtain ⟨a, ha, h⟩ := Option.bind_eq_some_iff.mp h
  obtain ⟨l, hl, heq⟩ := Option.map_eq_some_iff.mp h
  obtain ⟨rfl, rfl⟩ := Prod.mk.inj heq
  have hcases := LogState.step_cases hl
  cases p with
  | outside => cases ha
  | locking level =>
    obtain rfl := Option.some.inj ha
    cases hcases with
    | lock hp ho =>
      simp only at hp ho
      obtain rfl := LogPc.locking.inj hp
      subst ho
      simpa using LogMove.lock
  | testing level =>
    obtain rfl := Option.some.inj ha
    cases hcases with
    | filter hp hlevel =>
      obtain rfl := LogPc.testing.inj hp
      simpa using LogMove.filter hlevel
    | pass hp hlevel =>
      obtain rfl := LogPc.testing.inj hp
      simpa using LogMove.pass hlevel
  | formatting level =>
    obtain rfl := Option.some.inj ha
    cases hcases with
    | format hp =>
      obtain rfl := LogPc.formatting.inj hp
      simpa using LogMove.format
  | raw level =>
    obtain rfl := Option.some.inj ha
    cases hcases with
    | raw hp => simpa using LogMove.raw
  | unlocking =>
    obtain rfl := Option.some.inj ha
    cases hcases with
    | unlock hp => simpa using LogMove.unlock

omit [DecidableEq T] in
theorem LogMove.ne_outside {verbosity : ℤ} {t : T} {p p' : LogPc} {owner owner' : Option T}
    (h : LogMove verbosity t p owner p' owner') : p ≠ .outside := by
  cases h <;> simp

end Log

namespace Process

variable {T : Type*} [DecidableEq T]

/-- The position of a thread in `myepollLog`, in the code that it executes. -/
def current (s : Process T) (t : T) : LogPc :=
  match s.frames t with
  | [] => s.base t
  | f :: _ => f.pc.log

def setFrames (s : Process T) (t : T) (fs : List Frame) : Process T :=
  { s with frames := Function.update s.frames t fs }

def setCurrent (s : Process T) (t : T) (p : LogPc) : Process T :=
  match s.frames t with
  | [] => { s with base := Function.update s.base t p }
  | f :: fs => s.setFrames t ({ f with pc := f.pc.setLog p } :: fs)

theorem setCurrent_fields (s : Process T) (t : T) (p : LogPc) :
    ∃ base frames, s.setCurrent t p = { s with base := base, frames := frames } := by
  unfold setCurrent
  cases s.frames t with
  | nil => exact ⟨_, _, rfl⟩
  | cons f fs => exact ⟨_, _, rfl⟩

/-- The instructions of `sigtermHandler` outside `myepollLog`. -/
def handle (daemonize : Bool) (s : Process T) : HandlerPc → Option (Process T × HandlerPc)
  | .flag => some ({ s with shutdown := true }, .check)
  | .check => some (s, if s.pointer then .delete else .daemon)
  | .delete =>
      some (if s.pointer then { s with destroyed := s.destroyed + 1 } else s, .clear)
  | .clear => some ({ s with pointer := false }, .daemon)
  | .daemon => some (s, if daemonize then .removing (.locking MY_NOTICE) else .sleep)
  | .unlink => some (s, .sleep)
  | .sleep => some (s, .exit)
  | .exit => some ({ s with exited := true }, .exit)
  | .notice _ | .removing _ => none

def step (verbosity : ℤ) (daemonize : Bool) (s : Process T) (a : Action T) :
    Option (Process T) :=
  if s.exited then none
  else match a with
    | .construct t =>
        if s.frames t = [] ∧ s.created = false then
          some { s with created := true, pointer := true }
        else none
    | .call t level =>
        if s.frames t = [] ∧ s.base t = .outside then
          some { s with base := Function.update s.base t (.locking level) }
        else none
    | .log t =>
        (logStep verbosity s.owner t (s.current t)).map fun r =>
          { s.setCurrent t r.1 with owner := r.2 }
    | .signal t sig =>
        if sig ∉ (s.frames t).map Frame.sig then
          some (s.setFrames t (⟨sig, .notice (.locking MY_NOTICE)⟩ :: s.frames t))
        else none
    | .handler t =>
        match s.frames t with
        | [] => none
        | f :: fs =>
            (s.handle daemonize f.pc).map fun r => r.1.setFrames t ({ f with pc := r.2 } :: fs)

/-- When the handler is installed. The loading of the configuration has logged before and may
have left the mutex held. -/
def initial (owner : Option T) : Process T where
  created := false
  pointer := false
  destroyed := 0
  shutdown := false
  exited := false
  owner := owner
  base _ := .outside
  frames _ := []

/-- Every instruction of the handler outside `myepollLog`. -/
inductive HandlerMove (daemonize : Bool) (s : Process T) : HandlerPc → Process T → HandlerPc → Prop
  | flag : HandlerMove daemonize s .flag { s with shutdown := true } .check
  | found (h : s.pointer = true) : HandlerMove daemonize s .check s .delete
  | gone : HandlerMove daemonize s .check s .daemon
  | delete (h : s.pointer = true) :
      HandlerMove daemonize s .delete { s with destroyed := s.destroyed + 1 } .clear
  | deleteNull (h : s.pointer = false) : HandlerMove daemonize s .delete s .clear
  | clear : HandlerMove daemonize s .clear { s with pointer := false } .daemon
  | remove (h : daemonize = true) :
      HandlerMove daemonize s .daemon s (.removing (.locking MY_NOTICE))
  | stay (h : daemonize = false) : HandlerMove daemonize s .daemon s .sleep
  | unlink : HandlerMove daemonize s .unlink s .sleep
  | sleep : HandlerMove daemonize s .sleep s .exit
  | exit : HandlerMove daemonize s .exit { s with exited := true } .exit

omit [DecidableEq T] in
theorem handle_cases {daemonize : Bool} {s u : Process T} {pc pc' : HandlerPc}
    (h : s.handle daemonize pc = some (u, pc')) : HandlerMove daemonize s pc u pc' := by
  cases pc with
  | flag => cases h; exact .flag
  | check =>
    obtain ⟨rfl, rfl⟩ := Prod.mk.inj (Option.some.inj h)
    by_cases hp : s.pointer = true
    · simpa only [if_pos hp] using HandlerMove.found hp
    · simpa only [if_neg hp] using HandlerMove.gone
  | delete =>
    obtain ⟨rfl, rfl⟩ := Prod.mk.inj (Option.some.inj h)
    by_cases hp : s.pointer = true
    · simpa only [if_pos hp] using HandlerMove.delete hp
    · simpa only [if_neg hp] using HandlerMove.deleteNull (Bool.eq_false_iff.mpr hp)
  | clear => cases h; exact .clear
  | daemon =>
    obtain ⟨rfl, rfl⟩ := Prod.mk.inj (Option.some.inj h)
    cases daemonize
    · exact .stay rfl
    · exact .remove rfl
  | unlink => cases h; exact .unlink
  | sleep => cases h; exact .sleep
  | exit => cases h; exact .exit
  | notice | removing => cases h

omit [DecidableEq T] in
theorem HandlerMove.frames {daemonize : Bool} {s u : Process T} {pc pc' : HandlerPc}
    (h : HandlerMove daemonize s pc u pc') : u.frames = s.frames := by
  cases h <;> rfl

omit [DecidableEq T] in
theorem HandlerMove.base {daemonize : Bool} {s u : Process T} {pc pc' : HandlerPc}
    (h : HandlerMove daemonize s pc u pc') : u.base = s.base := by
  cases h <;> rfl

omit [DecidableEq T] in
theorem HandlerMove.owner {daemonize : Bool} {s u : Process T} {pc pc' : HandlerPc}
    (h : HandlerMove daemonize s pc u pc') : u.owner = s.owner := by
  cases h <;> rfl

omit [DecidableEq T] in
theorem HandlerMove.created {daemonize : Bool} {s u : Process T} {pc pc' : HandlerPc}
    (h : HandlerMove daemonize s pc u pc') : u.created = s.created := by
  cases h <;> rfl

omit [DecidableEq T] in
theorem HandlerMove.pointer {daemonize : Bool} {s u : Process T} {pc pc' : HandlerPc}
    (h : HandlerMove daemonize s pc u pc') (hp : u.pointer = true) : s.pointer = true := by
  cases h with
  | clear => simp at hp
  | _ => exact hp

/-- Every step with its guard and effect. -/
inductive Transition (verbosity : ℤ) (daemonize : Bool) (s : Process T) :
    Action T → Process T → Prop
  | construct {t : T} (hf : s.frames t = []) (hc : s.created = false) :
      Transition verbosity daemonize s (.construct t) { s with created := true, pointer := true }
  | call {t : T} {level : ℤ} (hf : s.frames t = []) (hb : s.base t = .outside) :
      Transition verbosity daemonize s (.call t level)
        { s with base := Function.update s.base t (.locking level) }
  | log {t : T} {p : LogPc} {owner : Option T}
      (h : LogMove verbosity t (s.current t) s.owner p owner) :
      Transition verbosity daemonize s (.log t) { s.setCurrent t p with owner := owner }
  | signal {t : T} {sig : Signal} (h : sig ∉ (s.frames t).map Frame.sig) :
      Transition verbosity daemonize s (.signal t sig)
        (s.setFrames t (⟨sig, .notice (.locking MY_NOTICE)⟩ :: s.frames t))
  | handler {t : T} {f : Frame} {fs : List Frame} {u : Process T} {pc : HandlerPc}
      (hf : s.frames t = f :: fs) (h : HandlerMove daemonize s f.pc u pc) :
      Transition verbosity daemonize s (.handler t) (u.setFrames t ({ f with pc := pc } :: fs))

theorem step_cases {verbosity : ℤ} {daemonize : Bool} {s s' : Process T} {a : Action T}
    (h : s.step verbosity daemonize a = some s') : Transition verbosity daemonize s a s' := by
  unfold step at h
  split_ifs at h
  cases a with
  | construct t =>
    simp only [Option.ite_none_right_eq_some, Option.some.injEq] at h
    obtain ⟨⟨hf, hc⟩, rfl⟩ := h
    exact .construct hf hc
  | call t level =>
    simp only [Option.ite_none_right_eq_some, Option.some.injEq] at h
    obtain ⟨⟨hf, hb⟩, rfl⟩ := h
    exact .call hf hb
  | log t =>
    obtain ⟨r, hr, rfl⟩ := Option.map_eq_some_iff.mp h
    exact .log (logStep_cases hr)
  | signal t sig =>
    simp only [Option.ite_none_right_eq_some, Option.some.injEq] at h
    obtain ⟨hsig, rfl⟩ := h
    exact .signal hsig
  | handler t =>
    cases hf : s.frames t with
    | nil => simp [hf] at h
    | cons f fs =>
      simp only [hf] at h
      obtain ⟨r, hr, rfl⟩ := Option.map_eq_some_iff.mp h
      exact .handler hf (handle_cases hr)

end Process

/-- The server from `initServer` on, with any threads. -/
def handlerMachine (T : Type*) [DecidableEq T] (verbosity : ℤ) (daemonize : Bool) :
    Machine (Process T) (Action T) where
  start s := ∃ owner, s = Process.initial owner
  step := Process.step verbosity daemonize

/-- One run of the handler, on the only thread, up to the assignment of NULL. -/
def terminated : List (Action Unit) :=
  [.construct (), .signal () .SIGTERM, .log (), .log (), .log (), .log (), .log (),
    .handler (), .handler (), .handler (), .handler ()]

end EpollThreads.Shutdown
