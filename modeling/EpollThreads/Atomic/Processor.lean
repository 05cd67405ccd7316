import EpollThreads.Foundations.AtomicObject
import Mathlib.Data.BitVec

/-!
# Processors that share one counter

The instructions that the routines of `iAtomic.h` are made of. Each processor has its own
registers and flags; the counter and the reservations of `ldl_l`, `lwarx` and
`ll` are shared. A store takes every reservation away, and a reservation can
also be lost without one.
-/

namespace EpollThreads.Atomic

abbrev Word := BitVec 32

/-- The names the source gives to the operands of its `asm` statements. -/
inductive Reg
  | temp
  | result
  | old
  | new
  | c
deriving DecidableEq

abbrev Regs := Reg → Word

inductive Operand
  | reg (r : Reg)
  | imm (w : Word)

def Operand.eval (rs : Regs) : Operand → Word
  | .reg r => rs r
  | .imm w => w

inductive Alu
  | add
  | sub

def Alu.eval : Alu → Word → Word → Word
  | .add, a, b => a + b
  | .sub, a, b => a - b

/-- The zero and the sign flag of the x86, the bits EQ and LT of field 0 of the PowerPC's CR. -/
structure Flags where
  zero : Bool
  negative : Bool

def Flags.of (w : Word) : Flags := ⟨w = 0, w.msb⟩

/-- The flags of a sum of 64 bits, where `lwarx` has filled the register of `a` up with zeros. -/
def Flags.ofWide (a w : Word) : Flags := ⟨a.toNat + w.toInt = 0, a.toNat + w.toInt < 0⟩

inductive Instr
  /-- `ldl_l`, `lwarx`, `ll` -/
  | loadLinked (d : Reg)
  | load (d : Reg)
  | store (b : Operand)
  /-- `stl_c` and `sc`, which tell in the register whether they have stored -/
  | storeConditional (r : Reg)
  /-- `stwcx.`, which tells in CR0 -/
  | storeConditionalRecord (r : Reg)
  /-- `cmpxchg4`, with `expected` in `ar.ccv` -/
  | compareExchange (d expected desired : Reg)
  /-- `fetchadd4` -/
  | fetchAdd (d : Reg) (w : Word)
  /-- `lock ; addl` and its kin -/
  | lock (f : Alu) (b : Operand)
  | alu (f : Alu) (d a : Reg) (b : Operand)
  /-- `addic.`, in the 64-bit mode or not -/
  | addRecord (wide : Bool) (d a : Reg) (w : Word)
  | branchZero (r : Reg) (target : ℕ)
  /-- `beqz` under `noreorder`: the next instruction is executed before the branch -/
  | branchZeroDelayed (r : Reg) (target : ℕ)
  /-- `bne` -/
  | branchNotEqual (target : ℕ)
  /-- `blt` -/
  | branchLess (target : ℕ)
  | branchDiffer (a b : Reg) (target : ℕ)
  | jump (target : ℕ)
  | barrier
  /-- `sete` -/
  | setEqual (d : Reg)
  /-- `sets` -/
  | setSign (d : Reg)
  | leave

structure Cpu where
  pc : ℕ
  /-- where the branch goes whose delay slot is being executed -/
  delayed : Option ℕ
  regs : Regs
  flags : Flags

namespace Cpu

def set (c : Cpu) (d : Reg) (w : Word) : Cpu := { c with regs := Function.update c.regs d w }

/-- On to the next instruction, or to where a delayed branch goes. -/
def advance (c : Cpu) : Cpu := { c with pc := c.delayed.getD (c.pc + 1), delayed := none }

def branch (c : Cpu) (taken : Bool) (target : ℕ) : Cpu :=
  if taken then { c with pc := target } else c.advance

end Cpu

/-- A truth value as an `int`. -/
def truth (b : Bool) : Word := if b then 1 else 0

/-- What an instruction does that leaves the counter alone. -/
def Instr.quiet : Instr → Cpu → Option Cpu
  | .alu f d a b, c => some (c.set d (f.eval (c.regs a) (b.eval c.regs))).advance
  | .addRecord wide d a w, c =>
    some { c.set d (c.regs a + w) with
      flags := if wide then .ofWide (c.regs a) w else .of (c.regs a + w) }.advance
  | .branchZero r target, c => some (c.branch (c.regs r = 0) target)
  | .branchZeroDelayed r target, c =>
    some { c.advance with delayed := if c.regs r = 0 then some target else none }
  | .branchNotEqual target, c => some (c.branch (!c.flags.zero) target)
  | .branchLess target, c => some (c.branch c.flags.negative target)
  | .branchDiffer a b target, c => some (c.branch (c.regs a ≠ c.regs b) target)
  | .jump target, c => some { c with pc := target }
  | .barrier, c => some c.advance
  | .setEqual d, c => some (c.set d (truth c.flags.zero)).advance
  | .setSign d, c => some (c.set d (truth c.flags.negative)).advance
  | _, _ => none

/-- What an instruction does to the counter and to its own processor's reservation. -/
inductive Effect
  | keep
  | link
  | unlink
  | store (w : Word)

/-- An instruction on a counter that holds `v`; `linked` says whether the processor's
reservation still stands, so that a conditional store may succeed. -/
def Instr.access (v : Word) (linked : Bool) : Instr → Cpu → Option (Cpu × Effect)
  | .loadLinked d, c => some ((c.set d v).advance, .link)
  | .load d, c => some ((c.set d v).advance, .keep)
  | .store b, c => some (c.advance, .store (b.eval c.regs))
  | .storeConditional r, c =>
    some ((c.set r (truth linked)).advance, if linked then .store (c.regs r) else .unlink)
  | .storeConditionalRecord r, c =>
    some ({ c with flags := ⟨linked, false⟩ }.advance,
      if linked then .store (c.regs r) else .unlink)
  | .compareExchange d expected desired, c =>
    some ((c.set d v).advance, if v = c.regs expected then .store (c.regs desired) else .keep)
  | .fetchAdd d w, c => some ((c.set d v).advance, .store (v + w))
  | .lock f b, c =>
    some ({ c with flags := .of (f.eval v (b.eval c.regs)) }.advance,
      .store (f.eval v (b.eval c.regs)))
  | _, _ => none

/-- A routine of the header: its instructions and the value of its `return`. -/
structure Routine where
  program : List Instr
  value : Regs → Option Word

namespace Routine

variable (r : Routine)

def instr (c : Cpu) : Option Instr := r.program[c.pc]?

def quiet (c : Cpu) : Option Cpu := (r.instr c).bind fun i => i.quiet c

def access (v : Word) (linked : Bool) (c : Cpu) : Option (Cpu × Effect) :=
  (r.instr c).bind fun i => i.access v linked c

/-- What the routine has to return, once it gets to its end. -/
def leaves (c : Cpu) : Option (Option Word) :=
  match r.instr c with
  | some .leave => some (r.value c.regs)
  | _ => none

end Routine

open Foundations AtomicObject

universe u v

/-- What a thread is doing: nothing, or some call of a routine. -/
inductive Call (ι : Type v)
  | idle
  | running (i : ι) (c : Cpu)

/-- The counter, the reservations on it, and the threads that use it. -/
structure Shared (T : Type u) (ι : Type v) where
  counter : Word
  reserved : T → Bool
  call : T → Call ι

inductive Action (T : Type u) (ι : Type v)
  | call (t : T) (i : ι) (regs : Regs) (flags : Flags)
  /-- one instruction of the thread; `spurious` is a conditional store that fails by itself -/
  | exec (t : T) (spurious : Bool)
  /-- the reservation is lost: an interrupt, or a store next to the counter -/
  | lose (t : T)
  | ret (t : T)

namespace Shared

variable {T : Type u} {ι : Type v} [DecidableEq T]

def setCall (s : Shared T ι) (t : T) (k : Call ι) : Shared T ι :=
  { s with call := Function.update s.call t k }

def apply (s : Shared T ι) (t : T) : Effect → Shared T ι
  | .keep => s
  | .link => { s with reserved := Function.update s.reserved t true }
  | .unlink => { s with reserved := Function.update s.reserved t false }
  | .store w => { s with counter := w, reserved := fun _ => false }

@[simp] theorem call_apply (s : Shared T ι) (t : T) (e : Effect) : (s.apply t e).call = s.call := by
  cases e <;> rfl

variable (routine : ι → Option Routine)

/-- One instruction of thread `t`. -/
def execute (s : Shared T ι) (t : T) (spurious : Bool) : Option (Shared T ι) :=
  match s.call t with
  | .idle => none
  | .running i c =>
    (routine i).bind fun r =>
      match r.quiet c with
      | some c' => some (s.setCall t (.running i c'))
      | none =>
        (r.access s.counter (s.reserved t && !spurious) c).map fun p =>
          (s.apply t p.2).setCall t (.running i p.1)

def step (s : Shared T ι) : Action T ι → Option (Shared T ι)
  | .call t i regs flags =>
    match s.call t, routine i with
    | .idle, some _ => some (s.setCall t (.running i ⟨0, none, regs, flags⟩))
    | _, _ => none
  | .exec t spurious => s.execute routine t spurious
  | .lose t => some { s with reserved := Function.update s.reserved t false }
  | .ret t =>
    match s.call t with
    | .idle => none
    | .running i c =>
      (routine i).bind fun r => (r.leaves c).map fun _ => s.setCall t .idle

/-- The calls and returns, as the callers see them. -/
def seen (s : Shared T ι) : Action T ι → Option (Event T ι (Option Word))
  | .call t i _ _ => some (.call t i)
  | .exec _ _ => none
  | .lose _ => none
  | .ret t =>
    match s.call t with
    | .idle => none
    | .running i c => ((routine i).bind fun r => r.leaves c).map fun w => .ret t i w

/-- What a step can do. -/
inductive Transition (s : Shared T ι) : Action T ι → Shared T ι → Prop
  | call {t : T} {i : ι} {r : Routine} {regs : Regs} {flags : Flags} (hcall : s.call t = .idle)
      (hi : routine i = some r) :
      Transition s (.call t i regs flags) (s.setCall t (.running i ⟨0, none, regs, flags⟩))
  | quiet {t : T} {i : ι} {r : Routine} {c c' : Cpu} {spurious : Bool}
      (hcall : s.call t = .running i c) (hi : routine i = some r) (hq : r.quiet c = some c') :
      Transition s (.exec t spurious) (s.setCall t (.running i c'))
  | access {t : T} {i : ι} {r : Routine} {c c' : Cpu} {e : Effect} {spurious : Bool}
      (hcall : s.call t = .running i c) (hi : routine i = some r) (hq : r.quiet c = none)
      (ha : r.access s.counter (s.reserved t && !spurious) c = some (c', e)) :
      Transition s (.exec t spurious) ((s.apply t e).setCall t (.running i c'))
  | lose {t : T} :
      Transition s (.lose t) { s with reserved := Function.update s.reserved t false }
  | ret {t : T} {i : ι} {r : Routine} {c : Cpu} {w : Option Word}
      (hcall : s.call t = .running i c) (hi : routine i = some r) (hl : r.leaves c = some w) :
      Transition s (.ret t) (s.setCall t .idle)

variable {routine} {s s' : Shared T ι}

theorem step_cases {a : Action T ι} (h : s.step routine a = some s') :
    s.Transition routine a s' := by
  cases a with
  | call t i regs flags =>
    simp only [step] at h
    split at h
    · next hcall hi => exact Option.some.inj h ▸ .call hcall hi
    · cases h
  | exec t spurious =>
    simp only [step, execute] at h
    split at h
    · cases h
    · next hcall =>
      obtain ⟨r, hi, h⟩ := Option.bind_eq_some_iff.mp h
      split at h
      · next hq => exact Option.some.inj h ▸ .quiet hcall hi hq
      · next hq =>
        obtain ⟨⟨c', e⟩, ha, rfl⟩ := Option.map_eq_some_iff.mp h
        exact .access hcall hi hq ha
  | lose t => exact Option.some.inj h ▸ .lose
  | ret t =>
    simp only [step] at h
    split at h
    · cases h
    · next hcall =>
      obtain ⟨r, hi, h⟩ := Option.bind_eq_some_iff.mp h
      obtain ⟨w, hl, rfl⟩ := Option.map_eq_some_iff.mp h
      exact .ret hcall hi hl

structure Start (v : Word) (s : Shared T ι) : Prop where
  counter : s.counter = v
  call : ∀ t, s.call t = .idle

end Shared

/-- Threads `T` that call `routine`s on a counter set to `v`. -/
def machine (T : Type u) [DecidableEq T] {ι : Type v} (routine : ι → Option Routine) (v : Word) :
    Machine (Shared T ι) (Action T ι) where
  start := Shared.Start v
  step := Shared.step routine

end EpollThreads.Atomic
