import EpollThreads.Atomic.Linearization

/-!
# The routines of `iAtomic.h`

For each processor the header knows, the instructions of its functions and
macros. An operand with the constraint `ir` is an immediate here: it is an
immediate or a register that the routine does not write. The mask macros of the
x86 are left out: they use ATOMIC_SMP_LOCK, which is undefined again behind them.
-/

namespace EpollThreads.Atomic

open Foundations

/-- The functions and macros of the header, without their `atomic_`. -/
inductive Fn
  | read
  | set (i : Word)
  | add (i : Word)
  | sub (i : Word)
  | addReturn (i : Word)
  | subReturn (i : Word)
  | inc
  | dec
  | incReturn
  | decReturn
  | subAndTest (i : Word)
  | decAndTest
  | incAndTest
  | addNegative (i : Word)
  | decIfPositive
deriving DecidableEq

/-- A call in the source, where the compiler may know the operand. -/
structure Site where
  fn : Fn
  known : Bool
deriving DecidableEq

namespace Routine

/-- A call as a statement. -/
def drop (r : Routine) : Routine := { r with value := fun _ => none }

/-- A macro that compares what a routine returns. -/
def test (r : Routine) (p : Word → Bool) : Routine :=
  { r with value := fun regs => (r.value regs).map fun w => truth (p w) }

def load : Routine := ⟨[.load .result, .leave], fun regs => some (regs .result)⟩

def assign (i : Word) : Routine := ⟨[.store (.imm i), .leave], fun _ => none⟩

end Routine

namespace X86

/-- A locked instruction, and the one that sets `c` from the flags. -/
def locked (f : Alu) (i : Word) : Routine := ⟨[.lock f (.imm i), .leave], fun _ => none⟩

def lockedEqual (f : Alu) (i : Word) : Routine :=
  ⟨[.lock f (.imm i), .setEqual .c, .leave], fun regs => some (regs .c)⟩

def lockedSign (f : Alu) (i : Word) : Routine :=
  ⟨[.lock f (.imm i), .setSign .c, .leave], fun regs => some (regs .c)⟩

def routine : Fn → Option Routine
  | .read => some .load
  | .set i => some (.assign i)
  | .add i => some (locked .add i)
  | .sub i => some (locked .sub i)
  | .subAndTest i => some (lockedEqual .sub i)
  | .inc => some (locked .add 1)
  | .dec => some (locked .sub 1)
  | .decAndTest => some ((lockedEqual .sub 1).test (· ≠ 0))
  | .incAndTest => some ((lockedEqual .add 1).test (· ≠ 0))
  | .addNegative i => some (lockedSign .add i)
  | .addReturn _ | .subReturn _ | .incReturn | .decReturn | .decIfPositive => none

end X86

namespace IA64

/-- `ia64_atomic_add` -/
def atomicAdd (i : Word) : Routine where
  program :=
    [.load .old,
      .alu .add .new .old (.imm i),
      .alu .add .temp .old (.imm i),
      .compareExchange .result .old .temp,
      .branchDiffer .result .old 0,
      .leave]
  value regs := some (regs .new)

/-- `ia64_atomic_sub` -/
def atomicSub (i : Word) : Routine where
  program :=
    [.load .old,
      .alu .sub .new .old (.imm i),
      .compareExchange .result .old .new,
      .branchDiffer .result .old 0,
      .leave]
  value regs := some (regs .new)

/-- The operands that `fetchadd4` has. -/
def fetchable (i : Word) : Bool :=
  i = 1 || i = 4 || i = 8 || i = 16 || i = -1 || i = -4 || i = -8 || i = -16

/-- `ia64_fetch_and_add` -/
def fetchAndAdd (i : Word) : Routine :=
  ⟨[.fetchAdd .temp i, .leave], fun regs => some (regs .temp + i)⟩

/-- `atomic_add_return`; `known` is `__builtin_constant_p` -/
def addReturn (known : Bool) (i : Word) : Routine :=
  if known && fetchable i then fetchAndAdd i else atomicAdd i

def subReturn (known : Bool) (i : Word) : Routine :=
  if known && fetchable i then fetchAndAdd (-i) else atomicSub i

def routine (known : Bool) : Fn → Option Routine
  | .read => some .load
  | .set i => some (.assign i)
  | .addNegative i => some ((atomicAdd i).test (·.msb))
  | .addReturn i => some (addReturn known i)
  | .subReturn i => some (subReturn known i)
  | .decReturn => some (subReturn true 1)
  | .incReturn => some (addReturn true 1)
  | .subAndTest i => some ((subReturn known i).test (· = 0))
  | .decAndTest => some ((subReturn true 1).test (· = 0))
  | .incAndTest => some ((addReturn true 1).test (· ≠ 0))
  | .add i => some (addReturn known i).drop
  | .sub i => some (subReturn known i).drop
  | .inc => some (addReturn true 1).drop
  | .dec => some (subReturn true 1).drop
  | .decIfPositive => none

end IA64

namespace Alpha

/-- `atomic_add` and `atomic_sub` -/
def loop (f : Alu) (i : Word) : Routine where
  program :=
    [.loadLinked .temp,
      .alu f .temp .temp (.imm i),
      .storeConditional .temp,
      .branchZero .temp 5,
      .leave,
      .jump 0]
  value _ := none

/-- `atomic_add_return` and `atomic_sub_return` -/
def returnLoop (f : Alu) (i : Word) : Routine where
  program :=
    [.loadLinked .temp,
      .alu f .result .temp (.imm i),
      .alu f .temp .temp (.imm i),
      .storeConditional .temp,
      .branchZero .temp 7,
      .barrier,
      .leave,
      .jump 0]
  value regs := some (regs .result)

def routine : Fn → Option Routine
  | .read => some .load
  | .set i => some (.assign i)
  | .add i => some (loop .add i)
  | .sub i => some (loop .sub i)
  | .addReturn i => some (returnLoop .add i)
  | .subReturn i => some (returnLoop .sub i)
  | .decReturn => some (returnLoop .sub 1)
  | .incReturn => some (returnLoop .add 1)
  | .subAndTest i => some ((returnLoop .sub i).test (· = 0))
  | .decAndTest => some ((returnLoop .sub 1).test (· = 0))
  | .inc => some (loop .add 1)
  | .dec => some (loop .sub 1)
  | .incAndTest | .addNegative _ | .decIfPositive => none

end Alpha

namespace PowerPC

/-- `lwarx`, an instruction on `t`, `stwcx.` and `bne-` -/
def loop (f : Alu) (i : Word) : Routine where
  program :=
    [.loadLinked .temp,
      .alu f .temp .temp (.imm i),
      .storeConditionalRecord .temp,
      .branchNotEqual 0,
      .leave]
  value _ := none

/-- The same with `isync`, and `return t`. -/
def returnLoop (f : Alu) (i : Word) : Routine where
  program :=
    [.loadLinked .temp,
      .alu f .temp .temp (.imm i),
      .storeConditionalRecord .temp,
      .branchNotEqual 0,
      .barrier,
      .leave]
  value regs := some (regs .temp)

/-- `atomic_dec_if_positive`; `wide` is the 64-bit mode -/
def decIfPositive (wide : Bool) : Routine where
  program :=
    [.loadLinked .temp,
      .addRecord wide .temp .temp (-1),
      .branchLess 6,
      .storeConditionalRecord .temp,
      .branchNotEqual 0,
      .barrier,
      .leave]
  value regs := some (regs .temp)

def routine (wide : Bool) : Fn → Option Routine
  | .read => some .load
  | .set i => some (.assign i)
  | .add a => some (loop .add a)
  | .addReturn a => some (returnLoop .add a)
  | .sub a => some (loop .sub a)
  | .subReturn a => some (returnLoop .sub a)
  | .inc => some (loop .add 1)
  | .incReturn => some (returnLoop .add 1)
  | .dec => some (loop .add (-1))
  | .decReturn => some (returnLoop .add (-1))
  | .subAndTest a => some ((returnLoop .sub a).test (· = 0))
  | .decAndTest => some ((returnLoop .add (-1)).test (· = 0))
  | .decIfPositive => some (decIfPositive wide)
  | .incAndTest | .addNegative _ => none

end PowerPC

namespace MIPS

/-- `atomic_add` and `atomic_sub`, where the assembler fills the delay slot of `beqz` -/
def loop (f : Alu) (i : Word) : Routine where
  program :=
    [.loadLinked .temp,
      .alu f .temp .temp (.imm i),
      .storeConditional .temp,
      .branchZero .temp 0,
      .leave]
  value _ := none

/-- `atomic_add_return` and `atomic_sub_return`, under `noreorder` -/
def returnLoop (f : Alu) (i : Word) : Routine where
  program :=
    [.loadLinked .temp,
      .alu f .result .temp (.imm i),
      .storeConditional .result,
      .branchZeroDelayed .result 0,
      .alu f .result .temp (.imm i),
      .leave]
  value regs := some (regs .result)

/-- `atomic_inc_and_test` gives `atomic_inc_return` an argument too many and does not compile. -/
def routine : Fn → Option Routine
  | .read => some .load
  | .set i => some (.assign i)
  | .add i => some (loop .add i)
  | .sub i => some (loop .sub i)
  | .addReturn i => some (returnLoop .add i)
  | .subReturn i => some (returnLoop .sub i)
  | .decReturn => some (returnLoop .sub 1)
  | .incReturn => some (returnLoop .add 1)
  | .subAndTest i => some ((returnLoop .sub i).test (· = 0))
  | .decAndTest => some ((returnLoop .sub 1).test (· = 0))
  | .inc => some (loop .add 1)
  | .dec => some (loop .sub 1)
  | .incAndTest | .addNegative _ | .decIfPositive => none

end MIPS

inductive Arch
  | x86
  | ia64
  | alpha
  | powerpc
  | powerpc64
  | mips
deriving DecidableEq

def Arch.routine : Arch → Site → Option Routine
  | .x86, site => X86.routine site.fn
  | .ia64, site => IA64.routine site.known site.fn
  | .alpha, site => Alpha.routine site.fn
  | .powerpc, site => PowerPC.routine false site.fn
  | .powerpc64, site => PowerPC.routine true site.fn
  | .mips, site => MIPS.routine site.fn

end EpollThreads.Atomic
