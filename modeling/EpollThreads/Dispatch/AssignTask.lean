import EpollThreads.Foundations.Machine
import Mathlib.Data.Int.Order.Basic
import Mathlib.Tactic

/-!
# Choosing a worker for an accepted socket

`ListenThread::AssignTask` scans the pool once. Every `GetActiveConns()` is a
separate read of a counter that worker threads may change between two reads,
so the scan is a machine whose step is one such read; the operands of the
comparison are read in either order. `counter` stands for
`m_taskthread[i]->GetActiveConns()`: it has no value outside the pool.
-/

namespace EpollThreads.Dispatch

open Foundations

/-- Where a call of `AssignTask` is; the loop variables are carried along. -/
inductive AssignPc
  | count (i target : ℕ) (activeConns : ℤ)
  | compare (i target : ℕ) (activeConns : ℤ) (left right : Option ℤ)
  | close
  | add (target : ℕ)
  | increment (target : ℕ)
  | returned
  deriving DecidableEq, Repr

/-- The three counter reads of one loop iteration. -/
inductive CounterRead
  | count
  | left
  | right
  deriving DecidableEq, Repr

inductive AssignOp
  | read (r : CounterRead)
  | close
  | add (ok : Bool)
  | increment
  deriving DecidableEq, Repr

namespace AssignPc

/-- The loop test, and the limit test once the loop has ended. -/
def loopHead (size : ℕ) (maxclients : ℤ) (i target : ℕ) (activeConns : ℤ) : AssignPc :=
  if i < size then .count i target activeConns
  else if maxclients < activeConns then .close
  else .add target

/-- `int target = 1; int activeConns = 1;` -/
def begin (size : ℕ) (maxclients : ℤ) : AssignPc := loopHead size maxclients 0 1 1

/-- The worker whose counter a read looks at. -/
def reads : AssignPc → CounterRead → Option ℕ
  | .count i _ _, .count => some i
  | .compare i _ _ none _, .left => some i
  | .compare _ target _ _ none, .right => some target
  | _, _ => none

/-- Both operands are known: keep or move the target and go round the loop. -/
def compared (size : ℕ) (maxclients : ℤ) (i target : ℕ) (activeConns left right : ℤ) : AssignPc :=
  loopHead size maxclients (i + 1) (if left < right then i else target) activeConns

def afterRead (size : ℕ) (maxclients : ℤ) : AssignPc → CounterRead → ℤ → Option AssignPc
  | .count i target activeConns, .count, v =>
      some (.compare i target (activeConns + v) none none)
  | .compare i target activeConns none none, .left, v =>
      some (.compare i target activeConns (some v) none)
  | .compare i target activeConns none none, .right, v =>
      some (.compare i target activeConns none (some v))
  | .compare i target activeConns none (some r), .left, v =>
      some (compared size maxclients i target activeConns v r)
  | .compare i target activeConns (some l) none, .right, v =>
      some (compared size maxclients i target activeConns l v)
  | _, _, _ => none

/-- One step of the call; `none` also covers an index outside the pool, which
the program does not check. -/
def step (size : ℕ) (maxclients : ℤ) (counter : ℕ → Option ℤ) :
    AssignPc → AssignOp → Option AssignPc
  | pc, .read r =>
      (pc.reads r).bind fun i => (counter i).bind fun v => pc.afterRead size maxclients r v
  | .close, .close => some .returned
  | .add target, .add ok =>
      if target < size then some (if ok then .increment target else .returned) else none
  | .increment target, .increment => if target < size then some .returned else none
  | _, _ => none

/-- The indices of `m_taskthread` that the next instruction may use. -/
def accesses : AssignPc → List ℕ
  | .count i _ _ => [i]
  | .compare i target _ left right =>
      (if left.isNone then [i] else []) ++ (if right.isNone then [target] else [])
  | .close => []
  | .add target => [target]
  | .increment target => [target]
  | .returned => []

/-- Loop variables that index the pool. -/
def InRange (size : ℕ) : AssignPc → Prop
  | .count i target _ => i < size ∧ target < size
  | .compare i target _ _ _ => i < size ∧ target < size
  | .add target => target < size
  | .increment target => target < size
  | .close => True
  | .returned => True

variable {size : ℕ} {maxclients : ℤ} {counter : ℕ → Option ℤ}

/-- A read of a counter: the one that is added up, an operand of the comparison while the other
is unknown, or the operand that completes it. -/
inductive Reading (size : ℕ) (maxclients : ℤ) : AssignPc → CounterRead → ℤ → AssignPc → Prop
  | count {i target : ℕ} {activeConns v : ℤ} :
      Reading size maxclients (.count i target activeConns) .count v
        (.compare i target (activeConns + v) none none)
  | leftFirst {i target : ℕ} {activeConns v : ℤ} :
      Reading size maxclients (.compare i target activeConns none none) .left v
        (.compare i target activeConns (some v) none)
  | rightFirst {i target : ℕ} {activeConns v : ℤ} :
      Reading size maxclients (.compare i target activeConns none none) .right v
        (.compare i target activeConns none (some v))
  | leftLast {i target : ℕ} {activeConns v right : ℤ} :
      Reading size maxclients (.compare i target activeConns none (some right)) .left v
        (compared size maxclients i target activeConns v right)
  | rightLast {i target : ℕ} {activeConns v left : ℤ} :
      Reading size maxclients (.compare i target activeConns (some left) none) .right v
        (compared size maxclients i target activeConns left v)

theorem afterRead_cases {pc pc' : AssignPc} {r : CounterRead} {v : ℤ}
    (h : pc.afterRead size maxclients r v = some pc') : Reading size maxclients pc r v pc' := by
  unfold AssignPc.afterRead at h
  split at h <;> simp only [Option.some.injEq, reduceCtorEq] at h <;> subst h
  · exact .count
  · exact .leftFirst
  · exact .rightFirst
  · exact .leftLast
  · exact .rightLast

theorem inRange_loopHead {i target : ℕ} {activeConns : ℤ} (h : target < size) :
    InRange size (loopHead size maxclients i target activeConns) := by
  unfold loopHead
  split_ifs with hi hm
  · exact ⟨hi, h⟩
  · trivial
  · exact h

theorem InRange.afterRead {pc pc' : AssignPc} {r : CounterRead} {v : ℤ}
    (h : InRange size pc) (hr : pc.afterRead size maxclients r v = some pc') :
    InRange size pc' := by
  cases afterRead_cases hr with
  | count | leftFirst | rightFirst => exact h
  | leftLast | rightLast => exact inRange_loopHead (by split_ifs <;> [exact h.1; exact h.2])

theorem step_read {pc pc' : AssignPc} {r : CounterRead}
    (h : pc.step size maxclients counter (.read r) = some pc') :
    ∃ i v, pc.reads r = some i ∧ counter i = some v ∧
      pc.afterRead size maxclients r v = some pc' := by
  have h' : ((pc.reads r).bind fun i => (counter i).bind fun v =>
      pc.afterRead size maxclients r v) = some pc' := by
    cases pc <;> exact h
  obtain ⟨i, hi, h'⟩ := Option.bind_eq_some_iff.mp h'
  obtain ⟨v, hv, h'⟩ := Option.bind_eq_some_iff.mp h'
  exact ⟨i, v, hi, hv, h'⟩

theorem step_close {pc pc' : AssignPc} (h : pc.step size maxclients counter .close = some pc') :
    pc = .close ∧ pc' = .returned := by
  cases pc <;> simp_all [AssignPc.step]

theorem step_add {pc pc' : AssignPc} {ok : Bool}
    (h : pc.step size maxclients counter (.add ok) = some pc') :
    ∃ target < size, pc = .add target ∧ pc' = if ok then .increment target else .returned := by
  cases pc <;> simp_all [AssignPc.step]

theorem step_increment {pc pc' : AssignPc}
    (h : pc.step size maxclients counter .increment = some pc') :
    ∃ target < size, pc = .increment target ∧ pc' = .returned := by
  cases pc <;> simp_all [AssignPc.step]

theorem InRange.step {pc pc' : AssignPc} {op : AssignOp} (h : InRange size pc)
    (hs : pc.step size maxclients counter op = some pc') : InRange size pc' := by
  cases op with
  | read r =>
    obtain ⟨i, v, -, -, hs⟩ := step_read hs
    exact h.afterRead hs
  | close =>
    obtain ⟨-, rfl⟩ := step_close hs
    trivial
  | add ok =>
    obtain ⟨target, ht, -, rfl⟩ := step_add hs
    cases ok
    · trivial
    · exact ht
  | increment =>
    obtain ⟨target, -, -, rfl⟩ := step_increment hs
    trivial

/-- The descriptor is still to be added or closed. -/
def Choosing : AssignPc → Prop
  | .increment _ | .returned => False
  | _ => True

theorem choosing_loopHead {i target : ℕ} {activeConns : ℤ} :
    (loopHead size maxclients i target activeConns).Choosing := by
  unfold loopHead
  split_ifs <;> trivial

/-- Counters are read before that only. -/
theorem choosing_afterRead {pc pc' : AssignPc} {r : CounterRead} {v : ℤ}
    (h : pc.afterRead size maxclients r v = some pc') : pc.Choosing ∧ pc'.Choosing := by
  cases afterRead_cases h with
  | count | leftFirst | rightFirst => exact ⟨trivial, trivial⟩
  | leftLast | rightLast => exact ⟨trivial, choosing_loopHead⟩

theorem InRange.accesses_lt {pc : AssignPc} (h : InRange size pc) :
    ∀ i ∈ pc.accesses, i < size := by
  cases pc <;> grind [InRange, accesses]

end AssignPc

/-- `ListenThread::InitTaskThread`: one `push_back` for each `i < maxthreads`. -/
def initTaskThread {β : Type*} (newTaskThread : ℕ → β) : ℕ → List β
  | 0 => []
  | k + 1 => initTaskThread newTaskThread k ++ [newTaskThread k]

@[simp] theorem length_initTaskThread {β : Type*} (newTaskThread : ℕ → β) (k : ℕ) :
    (initTaskThread newTaskThread k).length = k := by
  induction k with
  | zero => rfl
  | succ k ih => simp [initTaskThread, ih]

/-- A call of `AssignTask` over a fixed vector of counters. -/
def assignMachine (maxclients : ℤ) (counts : List ℤ) : Machine AssignPc AssignOp where
  start pc := pc = AssignPc.begin counts.length maxclients
  step := AssignPc.step counts.length maxclients (counts[·]?)

/-- `idx` is used on `m_taskthread` at some point of some such call. -/
def Accesses (maxclients : ℤ) (counts : List ℤ) (idx : ℕ) : Prop :=
  ∃ tr pc, (assignMachine maxclients counts).Reaches tr pc ∧ idx ∈ pc.accesses

theorem accesses_lt {maxclients : ℤ} {counts : List ℤ} (h : 2 ≤ counts.length) {idx : ℕ}
    (ha : Accesses maxclients counts idx) : idx < counts.length := by
  obtain ⟨tr, pc, hr, hidx⟩ := ha
  have hin : pc.InRange counts.length := by
    apply hr.invariant (I := AssignPc.InRange counts.length)
    · rintro s rfl
      exact AssignPc.inRange_loopHead h
    · intro s a t hs hstep
      exact hs.step hstep
  exact hin.accesses_lt idx hidx

/-- A pool of one worker is scanned against worker 1, and an empty pool is asked for it. -/
theorem accesses_one {maxclients : ℤ} {counts : List ℤ} (hm : 1 ≤ maxclients)
    (h : counts.length < 2) : Accesses maxclients counts 1 := by
  match counts, h with
  | [], _ =>
    refine ⟨[], _, ⟨_, rfl, .nil _⟩, ?_⟩
    simp [AssignPc.begin, AssignPc.loopHead, not_lt.mpr hm, AssignPc.accesses]
  | [v], _ =>
    refine ⟨[.read .count], .compare 0 1 (1 + v) none none, ⟨_, rfl, .of_exec ?_⟩, ?_⟩
    · simp [Machine.exec, assignMachine, AssignPc.begin, AssignPc.loopHead, AssignPc.step,
        AssignPc.reads, AssignPc.afterRead]
    · simp [AssignPc.accesses]

end EpollThreads.Dispatch
