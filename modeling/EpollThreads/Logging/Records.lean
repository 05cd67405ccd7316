import EpollThreads.Foundations.Decimal
import EpollThreads.Foundations.Simulation
import EpollThreads.Logging.LogMutex

/-!
# What gets into the log file

`myepollLogRaw` step by step: it opens the log file to append to it, and its
stream hands the record over in as many writes as it likes, until it is closed or
a write fails. Everything else is the logger of the mutex, with the texts it is
called with. A signal handler that logs counts as one more thread.
-/

namespace EpollThreads.Logging

open Foundations

def ANSI_RED : List Byte := 27 :: ascii "[31m"
def ANSI_YELLOW : List Byte := 27 :: ascii "[33m"
def ANSI_RESET : List Byte := 27 :: ascii "[0m"

/-- `level & MY_LOG_RAW` -/
def rawMode (level : ℤ) : Bool := level / MY_LOG_RAW % 2 = 1

/-- What `localtime` and `gettimeofday` tell. -/
structure Time where
  year : ℕ
  month : ℕ
  day : ℕ
  hour : ℕ
  minute : ℕ
  second : ℕ
  usec : ℕ

/-- `%0<width>d` -/
def padded (width n : ℕ) : List Byte := List.replicate (width - (printed n).length) 48 ++ printed n

/-- `"%Y-%m-%d %H:%M:%S."` and the milliseconds. -/
def stamp (t : Time) : List Byte :=
  printed t.year ++ ascii "-" ++ padded 2 t.month ++ ascii "-" ++ padded 2 t.day ++ ascii " " ++
    padded 2 t.hour ++ ascii ":" ++ padded 2 t.minute ++ ascii ":" ++ padded 2 t.second ++
    ascii "." ++ padded 3 (t.usec / 1000)

/-- `c[level]`, with the NUL that ends the constant. -/
def levelMark (level : ℤ) : Option Byte := (ascii ".-*#" ++ [0])[level.toNat]?

/-- What `fprintf` makes of a message; no value where it reads behind `c`. -/
def logRecord (tid : ℕ) (time : Time) (level : ℤ) (msg : List Byte) : Option (List Byte) :=
  if rawMode level then some (cstr msg)
  else (levelMark (levelBits level)).map fun c =>
    let text := ascii "[" ++ printed tid ++ ascii "] " ++ stamp time ++ ascii " " ++ [c] ++
      ascii " " ++ cstr msg
    if levelBits level = MY_NOTICE then ANSI_YELLOW ++ text ++ ANSI_RESET ++ [newline]
    else if levelBits level = MY_WARNING then ANSI_RED ++ text ++ ANSI_RESET ++ [newline]
    else text ++ [newline]

example : logRecord 7 ⟨2024, 1, 2, 3, 4, 5, 6000⟩ MY_VERBOSE (ascii "hi") =
    some (ascii "[7] 2024-01-02 03:04:05.006 - hi\n") := by decide

/-- An open log file: the record, how much of it has been handed over, and whether a write
failed. -/
structure Stream where
  record : List Byte
  written : ℕ
  failed : Bool
  deriving DecidableEq

def Stream.out (f : Stream) : List Byte := f.record.take f.written

/-- A call: its thread, its level and what its arguments format to. -/
structure LogCall (T : Type*) where
  thread : T
  level : ℤ
  text : List Byte
  deriving DecidableEq

/-- What came of a call that got past the level test. -/
structure Entry (T : Type*) where
  call : LogCall T
  stream : Stream
  deriving DecidableEq

inductive LoggerAct (T : Type*)
  | call (t : T) (level : ℤ) (text : List Byte)
  | lock (t : T)
  | test (t : T)
  | format (t : T)
  | fopen (t : T) (time : Time) (opened : Bool)
  | write (t : T) (k : ℕ)
  | writeErr (t : T)
  | fclose (t : T)
  | unlock (t : T)

/-- The mutex, what each thread has to log, its buffer `msg`, its open file, and the content of
the log file. -/
structure Logger (T : Type*) where
  log : LogState T
  text : T → List Byte
  msg : T → List Byte
  stream : T → Option Stream
  content : List Byte

namespace Logger

variable {T : Type*} [DecidableEq T]

def setStream (s : Logger T) (t : T) (f : Option Stream) : Logger T :=
  { s with stream := Function.update s.stream t f }

/-- One step; the steps of the mutex are those of `LogState.step`, and `raw` there is over with
`fclose` or with an `fopen` that fails. -/
def step (verbosity : ℤ) (gettid : T → ℕ) (s : Logger T) : LoggerAct T → Option (Logger T)
  | .call t level text =>
    (s.log.step verbosity (.call t level)).map fun log =>
      { s with log := log, text := Function.update s.text t text }
  | .lock t => (s.log.step verbosity (.lock t)).map fun log => { s with log := log }
  | .test t => (s.log.step verbosity (.test t)).map fun log => { s with log := log }
  | .format t =>
    (s.log.step verbosity (.format t)).map fun log =>
      { s with
        log := log
        msg := Function.update s.msg t ((s.text t).take (MY_MAX_LOGMSG_LEN - 1)) }
  | .fopen t time opened =>
    match s.log.pc t, s.stream t with
    | .raw level, none =>
      if opened then
        (logRecord (gettid t) time level (s.msg t)).map fun r => s.setStream t (some ⟨r, 0, false⟩)
      else (s.log.step verbosity (.raw t)).map fun log => { s with log := log }
    | _, _ => none
  | .write t k =>
    match s.stream t with
    | some f =>
      if f.failed = false ∧ 0 < k ∧ f.written + k ≤ f.record.length then
        some { s.setStream t (some { f with written := f.written + k }) with
          content := s.content ++ (f.record.drop f.written).take k }
      else none
    | none => none
  | .writeErr t => (s.stream t).map fun f => s.setStream t (some { f with failed := true })
  | .fclose t =>
    match s.stream t with
    | some f =>
      if f.failed ∨ f.written = f.record.length then
        (s.log.step verbosity (.raw t)).map fun log => { s.setStream t none with log := log }
      else none
    | none => none
  | .unlock t => (s.log.step verbosity (.unlock t)).map fun log => { s with log := log }

/-- Nobody has logged yet. -/
structure Start (content : List Byte) (s : Logger T) : Prop where
  log : s.log = .idle
  stream : ∀ t, s.stream t = none
  content : s.content = content

/-- The call that gets past the level test. -/
def passed (verbosity : ℤ) (s : Logger T) : LoggerAct T → Option (LogCall T)
  | .test t =>
    match s.log.pc t with
    | .testing level => if levelBits level < verbosity then none else some ⟨t, level, s.text t⟩
    | _ => none
  | _ => none

/-- What came of the call whose file is closed or could not be opened. -/
def finished (s : Logger T) : LoggerAct T → Option (Entry T)
  | .fopen t _ false =>
    match s.log.pc t with
    | .raw level => some ⟨⟨t, level, s.text t⟩, ⟨[], 0, true⟩⟩
    | _ => none
  | .fclose t =>
    match s.log.pc t, s.stream t with
    | .raw level, some f => some ⟨⟨t, level, s.text t⟩, f⟩
    | _, _ => none
  | _ => none

/-- What a step can do. -/
inductive Transition (verbosity : ℤ) (gettid : T → ℕ) (s : Logger T) :
    LoggerAct T → Logger T → Prop
  | call {t : T} {level : ℤ} {text : List Byte} (h : s.log.pc t = .outside) :
      Transition verbosity gettid s (.call t level text)
        { s with log := s.log.setPc t (.locking level), text := Function.update s.text t text }
  | lock {t : T} {level : ℤ} (h : s.log.pc t = .locking level) (ho : s.log.owner = none) :
      Transition verbosity gettid s (.lock t)
        { s with log := { s.log.setPc t (.testing level) with owner := some t } }
  | filter {t : T} {level : ℤ} (h : s.log.pc t = .testing level)
      (hl : levelBits level < verbosity) :
      Transition verbosity gettid s (.test t) { s with log := s.log.setPc t .outside }
  | pass {t : T} {level : ℤ} (h : s.log.pc t = .testing level)
      (hl : ¬levelBits level < verbosity) :
      Transition verbosity gettid s (.test t) { s with log := s.log.setPc t (.formatting level) }
  | format {t : T} {level : ℤ} (h : s.log.pc t = .formatting level) :
      Transition verbosity gettid s (.format t)
        { s with
          log := s.log.setPc t (.raw level)
          msg := Function.update s.msg t ((s.text t).take (MY_MAX_LOGMSG_LEN - 1)) }
  | opened {t : T} {time : Time} {level : ℤ} {r : List Byte} (h : s.log.pc t = .raw level)
      (hs : s.stream t = none) (hr : logRecord (gettid t) time level (s.msg t) = some r) :
      Transition verbosity gettid s (.fopen t time true) (s.setStream t (some ⟨r, 0, false⟩))
  | refused {t : T} {time : Time} {level : ℤ} (h : s.log.pc t = .raw level)
      (hs : s.stream t = none) :
      Transition verbosity gettid s (.fopen t time false)
        { s with log := s.log.setPc t .unlocking }
  | write {t : T} {k : ℕ} {f : Stream} (hs : s.stream t = some f)
      (hk : f.written + k ≤ f.record.length) :
      Transition verbosity gettid s (.write t k)
        { s.setStream t (some { f with written := f.written + k }) with
          content := s.content ++ (f.record.drop f.written).take k }
  | writeErr {t : T} {f : Stream} (hs : s.stream t = some f) :
      Transition verbosity gettid s (.writeErr t)
        (s.setStream t (some { f with failed := true }))
  | fclose {t : T} {level : ℤ} {f : Stream} (h : s.log.pc t = .raw level)
      (hs : s.stream t = some f) (hf : f.failed = true ∨ f.written = f.record.length) :
      Transition verbosity gettid s (.fclose t)
        { s.setStream t none with log := s.log.setPc t .unlocking }
  | unlock {t : T} (h : s.log.pc t = .unlocking) :
      Transition verbosity gettid s (.unlock t)
        { s with log := { s.log.setPc t .outside with owner := none } }

variable {verbosity : ℤ} {gettid : T → ℕ} {s s' : Logger T}

theorem step_cases {a : LoggerAct T} (h : s.step verbosity gettid a = some s') :
    Transition verbosity gettid s a s' := by
  cases a with
  | call t level text =>
    obtain ⟨log, hlog, rfl⟩ := Option.map_eq_some_iff.mp h
    cases LogState.step_cases hlog with
    | call hpc => exact .call hpc
  | lock t =>
    obtain ⟨log, hlog, rfl⟩ := Option.map_eq_some_iff.mp h
    cases LogState.step_cases hlog with
    | lock hpc ho => exact .lock hpc ho
  | test t =>
    obtain ⟨log, hlog, rfl⟩ := Option.map_eq_some_iff.mp h
    cases LogState.step_cases hlog with
    | filter hpc hl => exact .filter hpc hl
    | pass hpc hl => exact .pass hpc (not_lt.mpr hl)
  | format t =>
    obtain ⟨log, hlog, rfl⟩ := Option.map_eq_some_iff.mp h
    cases LogState.step_cases hlog with
    | format hpc => exact .format hpc
  | fopen t time opened =>
    simp only [step] at h
    split at h
    · next level hpc hs =>
      cases opened with
      | true =>
        obtain ⟨r, hr, rfl⟩ := Option.map_eq_some_iff.mp h
        exact .opened hpc hs hr
      | false =>
        obtain ⟨log, hlog, rfl⟩ := Option.map_eq_some_iff.mp h
        cases LogState.step_cases hlog with
        | raw => exact .refused hpc hs
    · cases h
  | write t k =>
    simp only [step] at h
    split at h
    · next f hs =>
      split_ifs at h with hk
      exact Option.some.inj h ▸ .write hs hk.2.2
    · cases h
  | writeErr t =>
    obtain ⟨f, hs, rfl⟩ := Option.map_eq_some_iff.mp h
    exact .writeErr hs
  | fclose t =>
    simp only [step] at h
    split at h
    · next f hs =>
      split_ifs at h with hf
      obtain ⟨log, hlog, rfl⟩ := Option.map_eq_some_iff.mp h
      cases LogState.step_cases hlog with
      | raw hpc => exact .fclose hpc hs hf
    · cases h
  | unlock t =>
    obtain ⟨log, hlog, rfl⟩ := Option.map_eq_some_iff.mp h
    cases LogState.step_cases hlog with
    | unlock hpc => exact .unlock hpc

end Logger

def loggerMachine (T : Type*) [DecidableEq T] (verbosity : ℤ) (gettid : T → ℕ)
    (content : List Byte) : Machine (Logger T) (LoggerAct T) where
  start := Logger.Start content
  step := Logger.step verbosity gettid

/-- The step of the mutex' logger that a step is; the writes are inside `raw`. -/
def LoggerAct.mutex {T : Type*} : LoggerAct T → Option (LogAct T)
  | .call t level _ => some (.call t level)
  | .lock t => some (.lock t)
  | .test t => some (.test t)
  | .format t => some (.format t)
  | .fopen t _ opened => if opened then none else some (.raw t)
  | .write _ _ | .writeErr _ => none
  | .fclose t => some (.raw t)
  | .unlock t => some (.unlock t)

/-- With its writes left out, the logger is the one of the mutex. -/
theorem refines_logMachine {T : Type*} [DecidableEq T] (verbosity : ℤ) (gettid : T → ℕ)
    (content : List Byte) :
    Simulation (loggerMachine T verbosity gettid content) (logMachine T verbosity)
      (fun s l => s.log = l) (fun _ => LoggerAct.mutex) (fun _ b => some b) where
  start {s} hs := ⟨.idle, rfl, hs.log⟩
  step {s l a s'} hl hstep := by
    subst hl
    change s.step verbosity gettid a = some s' at hstep
    cases a with
    | call | lock | test | format | unlock =>
      obtain ⟨log, hlog, rfl⟩ := Option.map_eq_some_iff.mp hstep
      exact Simulation.follow hlog rfl rfl
    | fopen t time opened =>
      simp only [Logger.step] at hstep
      split at hstep
      · cases opened with
        | true =>
          obtain ⟨r, -, rfl⟩ := Option.map_eq_some_iff.mp hstep
          exact ⟨[], s.log, .nil _, rfl, rfl⟩
        | false =>
          obtain ⟨log, hlog, rfl⟩ := Option.map_eq_some_iff.mp hstep
          exact Simulation.follow hlog rfl rfl
      · cases hstep
    | write t k =>
      cases Logger.step_cases hstep
      exact ⟨[], s.log, .nil _, rfl, rfl⟩
    | writeErr t =>
      cases Logger.step_cases hstep
      exact ⟨[], s.log, .nil _, rfl, rfl⟩
    | fclose t =>
      simp only [Logger.step] at hstep
      split at hstep
      · split_ifs at hstep
        obtain ⟨log, hlog, rfl⟩ := Option.map_eq_some_iff.mp hstep
        exact Simulation.follow hlog rfl rfl
      · cases hstep

end EpollThreads.Logging
