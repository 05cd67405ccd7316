import EpollThreads.Define
import EpollThreads.Foundations.Machine
import Mathlib.Data.Int.Order.Basic
import Mathlib.Logic.Function.Basic
import Mathlib.Tactic.Common

/-!
# The log mutex

`myepollLog` locks `g_LogFileMutex`, compares its level with the configured
verbosity, formats, calls `myepollLogRaw` and unlocks. One action is one of
these steps of one thread; any number of threads may be inside at once.
-/

namespace EpollThreads.Logging

open Foundations

/-- `level & 0xff` -/
def levelBits (level : ℤ) : ℤ := level % 256

/-- Where a thread is in `myepollLog`. -/
inductive LogPc
  | outside
  | locking (level : ℤ)
  | testing (level : ℤ)
  | formatting (level : ℤ)
  | raw (level : ℤ)
  | unlocking
  deriving DecidableEq, Repr

inductive LogAct (T : Type*)
  | call (t : T) (level : ℤ)
  | lock (t : T)
  | test (t : T)
  | format (t : T)
  | raw (t : T)
  | unlock (t : T)
  deriving DecidableEq, Repr

/-- The owner of the mutex and the position of every thread. -/
structure LogState (T : Type*) where
  owner : Option T
  pc : T → LogPc

namespace LogState

variable {T : Type*} [DecidableEq T]

def setPc (s : LogState T) (t : T) (pc : LogPc) : LogState T :=
  { s with pc := Function.update s.pc t pc }

/-- One step. The early return of the level test leaves the mutex as it is, and
whatever `myepollLogRaw` does, it returns. -/
def step (verbosity : ℤ) (s : LogState T) : LogAct T → Option (LogState T)
  | .call t level => if s.pc t = .outside then some (s.setPc t (.locking level)) else none
  | .lock t =>
      match s.pc t with
      | .locking level =>
          if s.owner = none then some { s.setPc t (.testing level) with owner := some t } else none
      | _ => none
  | .test t =>
      match s.pc t with
      | .testing level =>
          if levelBits level < verbosity then some (s.setPc t .outside)
          else some (s.setPc t (.formatting level))
      | _ => none
  | .format t =>
      match s.pc t with
      | .formatting level => some (s.setPc t (.raw level))
      | _ => none
  | .raw t =>
      match s.pc t with
      | .raw _ => some (s.setPc t .unlocking)
      | _ => none
  | .unlock t =>
      if s.pc t = .unlocking then some { s.setPc t .outside with owner := none } else none

/-- Nobody has logged yet. -/
def idle : LogState T := ⟨none, fun _ => .outside⟩

end LogState

def logMachine (T : Type*) [DecidableEq T] (verbosity : ℤ) : Machine (LogState T) (LogAct T) where
  start s := s = LogState.idle
  step := LogState.step verbosity

/-- Between the lock and the unlock or the early return. -/
def LogPc.Holding : LogPc → Prop
  | .testing _ | .formatting _ | .raw _ | .unlocking => True
  | _ => False

/-- The level a thread has still to compare is not filtered. -/
def LogPc.Passes (verbosity : ℤ) : LogPc → Prop
  | .locking level | .testing level => verbosity ≤ levelBits level
  | _ => True

/-- The level of a call is not filtered. -/
def LogAct.Passes {T : Type*} (verbosity : ℤ) : LogAct T → Prop
  | .call _ level => verbosity ≤ levelBits level
  | _ => True

namespace LogState

variable {T : Type*} [DecidableEq T] {verbosity : ℤ} {s s' : LogState T}

@[simp] theorem setPc_owner (t : T) (pc : LogPc) : (s.setPc t pc).owner = s.owner := rfl

@[simp] theorem setPc_pc (t : T) (pc : LogPc) :
    (s.setPc t pc).pc = Function.update s.pc t pc := rfl

/-- Held while no thread is inside `myepollLog`. -/
def Orphaned (s : LogState T) : Prop := (∃ t, s.owner = some t) ∧ ∀ t, s.pc t = .outside

/-- The mutex belongs to the one thread that is past the lock. -/
def Sound (s : LogState T) : Prop := ∀ t, s.owner = some t ↔ (s.pc t).Holding

/-- Every step of the logger with its guard and effect. -/
inductive Transition (verbosity : ℤ) (s : LogState T) : LogAct T → LogState T → Prop
  | call {t : T} {level : ℤ} (h : s.pc t = .outside) :
      Transition verbosity s (.call t level) (s.setPc t (.locking level))
  | lock {t : T} {level : ℤ} (h : s.pc t = .locking level) (ho : s.owner = none) :
      Transition verbosity s (.lock t) { s.setPc t (.testing level) with owner := some t }
  | filter {t : T} {level : ℤ} (h : s.pc t = .testing level)
      (hl : levelBits level < verbosity) :
      Transition verbosity s (.test t) (s.setPc t .outside)
  | pass {t : T} {level : ℤ} (h : s.pc t = .testing level)
      (hl : verbosity ≤ levelBits level) :
      Transition verbosity s (.test t) (s.setPc t (.formatting level))
  | format {t : T} {level : ℤ} (h : s.pc t = .formatting level) :
      Transition verbosity s (.format t) (s.setPc t (.raw level))
  | raw {t : T} {level : ℤ} (h : s.pc t = .raw level) :
      Transition verbosity s (.raw t) (s.setPc t .unlocking)
  | unlock {t : T} (h : s.pc t = .unlocking) :
      Transition verbosity s (.unlock t) { s.setPc t .outside with owner := none }

theorem step_cases {a : LogAct T} (h : s.step verbosity a = some s') :
    Transition verbosity s a s' := by
  cases a with
  | call t level =>
    simp only [step, Option.ite_none_right_eq_some, Option.some.injEq] at h
    exact h.2 ▸ .call h.1
  | lock t =>
    simp only [step] at h
    split at h
    · simp only [Option.ite_none_right_eq_some, Option.some.injEq] at h
      exact h.2 ▸ .lock ‹_› h.1
    · simp at h
  | test t =>
    simp only [step] at h
    split at h
    · split at h
      · exact Option.some.inj h ▸ .filter ‹_› ‹_›
      · exact Option.some.inj h ▸ .pass ‹_› (not_lt.mp ‹_›)
    · simp at h
  | format t =>
    simp only [step] at h
    split at h
    · exact Option.some.inj h ▸ .format ‹_›
    · simp at h
  | raw t =>
    simp only [step] at h
    split at h
    · exact Option.some.inj h ▸ .raw ‹_›
    · simp at h
  | unlock t =>
    simp only [step, Option.ite_none_right_eq_some, Option.some.injEq] at h
    exact h.2 ▸ .unlock h.1

theorem Sound.setPc (h : s.Sound) {t : T} {pc : LogPc}
    (hpc : pc.Holding ↔ (s.pc t).Holding) : (s.setPc t pc).Sound := by
  intro t'
  by_cases he : t' = t
  · subst he; simp [hpc, h t']
  · simp [he, h t']

/-- The mutex is passed on correctly as long as no level is filtered. -/
structure Kept (verbosity : ℤ) (s : LogState T) : Prop where
  sound : s.Sound
  passes : ∀ t, (s.pc t).Passes verbosity

theorem Kept.setPc (h : Kept verbosity s) {t : T} {pc : LogPc}
    (hpc : pc.Holding ↔ (s.pc t).Holding) (hp : pc.Passes verbosity) :
    Kept verbosity (s.setPc t pc) where
  sound := h.sound.setPc hpc
  passes t' := by
    by_cases he : t' = t
    · subst he; simpa using hp
    · simpa [he] using h.passes t'

theorem Kept.step (h : Kept verbosity s) {a : LogAct T} (ha : a.Passes verbosity)
    (ht : Transition verbosity s a s') : Kept verbosity s' := by
  cases ht with
  | call hpc => exact h.setPc (by rw [hpc]; exact Iff.rfl) ha
  | @lock t level hpc ho =>
    refine ⟨fun t' => ?_, fun t' => ?_⟩ <;> by_cases he : t' = t
    · subst he; simp [LogPc.Holding]
    · have hno : ¬(s.pc t').Holding := (h.sound t').not.mp (by simp [ho])
      simp [he, hno, Ne.symm he]
    · subst he
      have hp := h.passes t'
      rw [hpc] at hp
      simp only [setPc_pc, Function.update_self]
      exact hp
    · simpa [he] using h.passes t'
  | @filter t level hpc hl =>
    have hp := h.passes t
    rw [hpc] at hp
    exact (not_lt.mpr hp hl).elim
  | pass hpc | format hpc | raw hpc => exact h.setPc (by rw [hpc]; exact Iff.rfl) trivial
  | @unlock t hpc =>
    have hown : s.owner = some t := (h.sound t).mpr (by rw [hpc]; trivial)
    refine ⟨fun t' => ?_, fun t' => ?_⟩ <;> by_cases he : t' = t
    · subst he; simp [LogPc.Holding]
    · have hno : ¬(s.pc t').Holding := (h.sound t').not.mp (by simp [hown, Ne.symm he])
      simp [he, hno]
    · subst he; simp [LogPc.Passes]
    · simpa [he] using h.passes t'

omit [DecidableEq T] in
theorem kept_idle : Kept verbosity (idle : LogState T) :=
  ⟨fun t => by simp [idle, LogPc.Holding], fun _ => trivial⟩

theorem Kept.of_reaches {tr : List (LogAct T)} (h : (logMachine T verbosity).Reaches tr s)
    (ha : ∀ a ∈ tr, a.Passes verbosity) : Kept verbosity s :=
  h.invariant_of (fun hs => hs ▸ kept_idle) (fun ha hk hstep => hk.step ha (step_cases hstep)) ha

/-- Steps of `t` alone lead to a state in which the mutex is free. -/
def CanRelease (verbosity : ℤ) (s : LogState T) (t : T) : Prop :=
  ∃ tr s', (logMachine T verbosity).Run s tr s' ∧ s'.owner = none ∧
    ∀ t', t' ≠ t → s'.pc t' = s.pc t'

variable {t : T}

theorem run_of_step {a : LogAct T} (h : s.step verbosity a = some s') :
    (logMachine T verbosity).Run s [a] s' :=
  .single h

theorem canRelease_unlocking (h : s.pc t = .unlocking) : CanRelease verbosity s t := by
  have hstep : s.step verbosity (.unlock t) = some ⟨none, Function.update s.pc t .outside⟩ := by
    simp [step, h, setPc]
  exact ⟨_, _, run_of_step hstep, rfl, fun t' ht => by simp [ht]⟩

theorem CanRelease.of_move {a : LogAct T} {pc : LogPc}
    (hstep : s.step verbosity a = some (s.setPc t pc))
    (h : CanRelease verbosity (s.setPc t pc) t) : CanRelease verbosity s t := by
  obtain ⟨tr, s', hrun, hfree, hsame⟩ := h
  exact ⟨_, s', (run_of_step hstep).append hrun, hfree,
    fun t' ht => by simp [hsame t' ht, ht]⟩

theorem canRelease_raw {level : ℤ} (h : s.pc t = .raw level) : CanRelease verbosity s t := by
  have hstep : s.step verbosity (.raw t) = some (s.setPc t .unlocking) := by simp [step, h]
  exact .of_move hstep (canRelease_unlocking (by simp))

theorem canRelease_formatting {level : ℤ} (h : s.pc t = .formatting level) :
    CanRelease verbosity s t := by
  have hstep : s.step verbosity (.format t) = some (s.setPc t (.raw level)) := by simp [step, h]
  have hpc : (s.setPc t (.raw level)).pc t = .raw level := by simp
  exact .of_move hstep (canRelease_raw hpc)

theorem canRelease_testing {level : ℤ} (h : s.pc t = .testing level)
    (hl : verbosity ≤ levelBits level) : CanRelease verbosity s t := by
  have hstep : s.step verbosity (.test t) = some (s.setPc t (.formatting level)) := by
    simp [step, h, not_lt.mpr hl]
  have hpc : (s.setPc t (.formatting level)).pc t = .formatting level := by simp
  exact .of_move hstep (canRelease_formatting hpc)

theorem Kept.canRelease (h : Kept verbosity s) (ho : s.owner = some t) :
    CanRelease verbosity s t := by
  have hhold := (h.sound t).mp ho
  cases hpc : s.pc t with
  | outside => rw [hpc] at hhold; exact hhold.elim
  | locking level => rw [hpc] at hhold; exact hhold.elim
  | testing level =>
    have hp := h.passes t
    rw [hpc] at hp
    exact canRelease_testing hpc hp
  | formatting level => exact canRelease_formatting hpc
  | raw level => exact canRelease_raw hpc
  | unlocking => exact canRelease_unlocking hpc

theorem lock_of_free {level : ℤ} (h : s.pc t = .locking level) (ho : s.owner = none) :
    ∃ s', (logMachine T verbosity).Run s [.lock t] s' ∧ s'.owner = some t := by
  have hstep : s.step verbosity (.lock t) =
      some ⟨some t, Function.update s.pc t (.testing level)⟩ := by simp [step, h, ho, setPc]
  exact ⟨_, run_of_step hstep, rfl⟩

/-- What is expected of the mutex: it is not held with everybody outside, a call that
returned does not hold it, and whoever waits for it can get it. -/
structure Healthy (verbosity : ℤ) (s : LogState T) : Prop where
  notOrphaned : ¬s.Orphaned
  released : ∀ t, s.pc t = .outside → s.owner ≠ some t
  acquire : ∀ t level, s.pc t = .locking level →
    ∃ tr s', (logMachine T verbosity).Run s tr s' ∧ s'.owner = some t

theorem Kept.healthy (h : Kept verbosity s) : Healthy verbosity s where
  notOrphaned := by
    rintro ⟨⟨t, ho⟩, hout⟩
    have hhold := (h.sound t).mp ho
    rw [hout t] at hhold
    exact hhold
  released t hpc ho := by
    have hhold := (h.sound t).mp ho
    rw [hpc] at hhold
    exact hhold
  acquire t level hpc := by
    cases ho : s.owner with
    | none =>
      obtain ⟨s', hrun, ho'⟩ := lock_of_free hpc ho
      exact ⟨_, s', hrun, ho'⟩
    | some t₀ =>
      have hne : t ≠ t₀ := by
        rintro rfl
        have hhold := (h.sound t).mp ho
        rw [hpc] at hhold
        exact hhold
      obtain ⟨tr, u, hrun, hfree, hsame⟩ := h.canRelease ho
      obtain ⟨s', hlock, ho'⟩ := lock_of_free ((hsame t hne).trans hpc) hfree
      exact ⟨_, s', hrun.append hlock, ho'⟩

/-- A filtered call returns with the mutex. -/
theorem orphaned_of_filtered {level : ℤ} (t : T) (hl : levelBits level < verbosity) :
    ∃ s, (logMachine T verbosity).Reaches [.call t level, .lock t, .test t] s ∧ s.Orphaned := by
  have hexec : (logMachine T verbosity).exec idle [.call t level, .lock t, .test t] =
      some ⟨some t, fun _ => .outside⟩ := by
    simp [Machine.exec, logMachine, step, idle, setPc, hl]
  exact ⟨_, ⟨idle, rfl, .of_exec hexec⟩, ⟨t, rfl⟩, fun _ => rfl⟩

/-- The mutex is handled as it should be in every run at levels of `L` exactly when no level
of `L` is filtered. -/
theorem healthy_iff [Inhabited T] {L : Set ℤ} :
    (∀ {tr : List (LogAct T)} {s : LogState T}, (logMachine T verbosity).Reaches tr s →
      (∀ t level, .call t level ∈ tr → level ∈ L) → Healthy verbosity s) ↔
    ∀ level ∈ L, verbosity ≤ levelBits level := by
  constructor
  · intro h level hlevel
    by_contra hl
    obtain ⟨s, hr, ho⟩ := orphaned_of_filtered (default : T) (not_le.mp hl)
    refine (h hr fun t l hmem => ?_).notOrphaned ho
    simp only [List.mem_cons, LogAct.call.injEq, reduceCtorEq, List.not_mem_nil, or_false] at hmem
    exact hmem.2 ▸ hlevel
  · intro h tr s hr hL
    refine (Kept.of_reaches hr fun a ha => ?_).healthy
    cases a with
    | call t level => exact h level (hL t level ha)
    | _ => trivial

/-- Two threads at verbosity `verbose`: a debug message leaves the mutex locked for good. -/
theorem not_healthy_debug :
    ∃ s : LogState (Fin 2), (logMachine (Fin 2) MY_VERBOSE).Reaches
      [.call 0 MY_DEBUG, .lock 0, .test 0] s ∧ s.Orphaned := by
  exact orphaned_of_filtered 0 (by decide)

end LogState

/-- A call of a thread that runs alone, on a mutex that is held or not: it
blocks, or it returns and leaves the mutex held when its level is filtered. -/
def myepollLog (verbosity level : ℤ) (held : Bool) : Option Bool :=
  if held then none else some (levelBits level < verbosity)

namespace LogState

variable {T : Type*} [DecidableEq T] {verbosity : ℤ} {s : LogState T} {t : T}

/-- `myepollLog` is what the steps of one thread amount to. -/
theorem run_myepollLog (hpc : s.pc t = .outside) (level : ℤ) :
    ∃ tr s', (logMachine T verbosity).Run s tr s' ∧
      match myepollLog verbosity level s.owner.isSome with
      | some held => s'.pc t = .outside ∧ s'.owner.isSome = held
      | none => s'.pc t = .locking level ∧ s'.step verbosity (.lock t) = none := by
  cases ho : s.owner with
  | some t₀ =>
    have hcall : s.step verbosity (.call t level) = some (s.setPc t (.locking level)) := by
      simp [step, hpc]
    exact ⟨_, _, run_of_step hcall, by simp, by simp [step, ho]⟩
  | none =>
    by_cases hl : levelBits level < verbosity
    · have hexec : (logMachine T verbosity).exec s [.call t level, .lock t, .test t] =
          some ⟨some t, Function.update s.pc t .outside⟩ := by
        simp [Machine.exec, logMachine, step, setPc, hpc, ho, hl]
      exact ⟨_, _, .of_exec hexec, by simp [myepollLog, hl]⟩
    · have hexec : (logMachine T verbosity).exec s
          [.call t level, .lock t, .test t, .format t, .raw t, .unlock t] =
          some ⟨none, Function.update s.pc t .outside⟩ := by
        simp [Machine.exec, logMachine, step, setPc, hpc, ho, hl]
      exact ⟨_, _, .of_exec hexec, by simp [myepollLog, hl]⟩

end LogState
end EpollThreads.Logging
