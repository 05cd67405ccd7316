import EpollThreads.Foundations.Observation
import EpollThreads.Logging.LogMutex
import EpollThreads.Startup.Capacity

/-!
# The event buffer of an `iEpoll`

The constructor acquires the epoll descriptor and then the buffer, and returns at
the first failure. Its caller cannot see how far it came: `i_epoll_wait` and the
destructor use `m_events` in any case, and a half-built object still has there
what the memory held before.
-/

namespace EpollThreads.Startup

open Foundations Logging Config

abbrev Address := UInt64

def NULL : Address := 0

/-- What `new[]` returns: it throws rather than give NULL. -/
abbrev Block := { p : Address // p ≠ NULL }

/-- The answers of the system; `new` gives no block where it throws. -/
structure Resources where
  epoll_create : ℤ → ℤ
  new : ℤ → Option Block

/-- `epoll_create` refuses a size that is not positive. -/
def Resources.Lawful (r : Resources) : Prop := ∀ size ≤ 0, r.epoll_create size = -1

structure IEpoll where
  m_epfd : ℤ
  m_maxevents : ℤ
  m_events : Address
  deriving DecidableEq, Repr

/-- A buffer from `new[]` and its number of elements. -/
structure Allocation where
  events : Address
  count : ℤ
  deriving DecidableEq, Repr

/-- The object when the constructor returns, the buffer it allocated, and the log mutex. -/
structure Constructed where
  object : IEpoll
  allocated : Option Allocation
  held : Bool
  deriving DecidableEq, Repr

namespace IEpoll

section Construction

variable (r : Resources) (verbosity : ℤ)

/-- There is no result where the message waits for the log mutex. -/
def i_epoll_create (nCapacity : ℤ) (e : IEpoll) (held : Bool) : Option (ℤ × IEpoll × Bool) :=
  let e := { e with m_epfd := r.epoll_create nCapacity }
  if e.m_epfd = -1 then
    (myepollLog verbosity MY_WARNING held).map fun held => (-1, e, held)
  else some (0, e, held)

/-- `iEpoll::iEpoll` on memory that holds `memory` where `m_events` will be. There is no result
where it does not return; the test for NULL after `new` never succeeds. -/
def construct (memory : Address) (nCapacity : ℤ) (held : Bool) : Option Constructed :=
  (i_epoll_create r verbosity nCapacity ⟨-1, nCapacity, memory⟩ held).bind fun (nRet, e, held) =>
    if nRet = -1 then some ⟨e, none, held⟩
    else (r.new e.m_maxevents).map fun (p : Block) =>
      ⟨{ e with m_events := p }, some ⟨p, e.m_maxevents⟩, held⟩

end Construction

end IEpoll

inductive ObjectPc
  | test
  | wait
  | returned
  | destroying
  | destroyed
  deriving DecidableEq, Repr

/-- An object with its thread in `i_epoll_wait`, until the destructor ends both. -/
structure EpollObject where
  e : IEpoll
  pc : ObjectPc
  deriving DecidableEq, Repr

/-- `wait` is the call of `epoll_wait` with the handling of its events; `close` and `delete` are
the two halves of the destructor. -/
inductive ObjectOp
  | test (shutdown : Bool)
  | wait
  | close
  | delete
  deriving DecidableEq, Repr

namespace EpollObject

def step (s : EpollObject) : ObjectOp → Option EpollObject
  | .test shutdown =>
      if s.pc = .test then some { s with pc := if shutdown then .returned else .wait } else none
  | .wait => if s.pc = .wait then some { s with pc := .test } else none
  | .close =>
      if s.pc ≠ .destroying ∧ s.pc ≠ .destroyed then some { s with pc := .destroying } else none
  | .delete =>
      if s.pc = .destroying then some ⟨{ s.e with m_events := NULL }, .destroyed⟩ else none

end EpollObject

def objectMachine : Machine EpollObject ObjectOp where
  start s := s.pc = .test
  step := EpollObject.step

/-- A use of the event buffer. -/
inductive BufferUse
  | epoll_wait (events : Address) (maxevents : ℤ)
  | delete (events : Address)
  deriving DecidableEq, Repr

/-- The destructor deletes what is not NULL. -/
def bufferUse (s : EpollObject) : ObjectOp → Option BufferUse
  | .wait => some (.epoll_wait s.e.m_events s.e.m_maxevents)
  | .delete => if s.e.m_events = NULL then none else some (.delete s.e.m_events)
  | _ => none

/-- The buffer is the one that was allocated, with as many elements as `epoll_wait` is told. -/
def BufferUse.Sound (allocated : Option Allocation) : BufferUse → Prop
  | .epoll_wait events maxevents => allocated = some ⟨events, maxevents⟩
  | .delete events => ∃ count, allocated = some ⟨events, count⟩

section Construction

variable {r : Resources} {verbosity nCapacity : ℤ} {memory : Address} {held : Bool}
  {c : Constructed}

/-- Without a descriptor there is no buffer, and `m_events` is left as it was. -/
theorem construct_of_fail (hfail : r.epoll_create nCapacity = -1)
    (h : IEpoll.construct r verbosity memory nCapacity held = some c) :
    c.allocated = none ∧ c.object.m_events = memory := by
  simp only [IEpoll.construct, IEpoll.i_epoll_create, hfail, if_true] at h
  obtain ⟨_, hlog, h⟩ := Option.bind_eq_some_iff.mp h
  obtain ⟨_, -, rfl⟩ := Option.map_eq_some_iff.mp hlog
  obtain rfl := Option.some.inj h
  exact ⟨rfl, rfl⟩

theorem construct_eq (hok : r.epoll_create nCapacity ≠ -1) :
    IEpoll.construct r verbosity memory nCapacity held =
      (r.new nCapacity).map fun (p : Block) =>
        ⟨⟨r.epoll_create nCapacity, nCapacity, p⟩, some ⟨p, nCapacity⟩, held⟩ := by
  simp only [IEpoll.construct, IEpoll.i_epoll_create, if_neg hok, Option.bind_some]
  rfl

theorem construct_of_created (hok : r.epoll_create nCapacity ≠ -1)
    (h : IEpoll.construct r verbosity memory nCapacity held = some c) :
    c.allocated = some ⟨c.object.m_events, c.object.m_maxevents⟩ := by
  rw [construct_eq hok] at h
  obtain ⟨_, -, rfl⟩ := Option.map_eq_some_iff.mp h
  rfl

end Construction

namespace EpollObject

variable {e : IEpoll} {s t : EpollObject} {op : ObjectOp} {tr : List ObjectOp}

theorem unchanged_step (h : s.step op = some t) (hpc : t.pc ≠ .destroyed) :
    t.e = s.e ∧ s.pc ≠ .destroyed := by
  cases op with
  | test | wait | close =>
    simp only [step, Option.ite_none_right_eq_some, Option.some.injEq] at h
    obtain ⟨hs, rfl⟩ := h
    refine ⟨rfl, fun hd => ?_⟩
    simp [hd] at hs
  | delete =>
    simp only [step, Option.ite_none_right_eq_some, Option.some.injEq] at h
    obtain ⟨-, rfl⟩ := h
    exact absurd rfl hpc

theorem unchanged (h : objectMachine.Run ⟨e, .test⟩ tr t) (hpc : t.pc ≠ .destroyed) : t.e = e := by
  induction h with
  | nil => rfl
  | snoc _ hstep ih =>
    obtain ⟨heq, hlive⟩ := unchanged_step hstep hpc
    exact heq.trans (ih hlive)

theorem live_of_step (h : s.step op = some t) : s.pc ≠ .destroyed := by
  intro hd
  cases op <;> simp [step, hd] at h

theorem mem_record_iff (h : objectMachine.Run ⟨e, .test⟩ tr t) {u : BufferUse} :
    u ∈ objectMachine.record bufferUse ⟨e, .test⟩ tr ↔
      (.wait ∈ tr ∧ u = .epoll_wait e.m_events e.m_maxevents) ∨
        (.delete ∈ tr ∧ e.m_events ≠ NULL ∧ u = .delete e.m_events) := by
  induction h with
  | nil => simp [Machine.record]
  | @snoc v w tr op hrun hstep ih =>
    have hv : v.e = e := unchanged hrun (live_of_step hstep)
    rw [hrun.record_snoc, List.mem_append, ih]
    cases op with
    | test | close => simp [bufferUse]
    | wait =>
      simp only [bufferUse, hv, Option.toList_some, List.mem_singleton, List.mem_append]
      grind
    | delete =>
      by_cases hnull : e.m_events = NULL
      · simp [bufferUse, hv, hnull]
      · simp only [bufferUse, hv, if_neg hnull, Option.toList_some, List.mem_singleton,
          List.mem_append, reduceCtorEq]
        grind

end EpollObject

/-- Along a run of an object the buffer that is used is the one allocated for it exactly if
`epoll_create` succeeded, or nothing is used: no `epoll_wait` is called, and what is destroyed
has NULL by chance. -/
theorem event_buffer_iff {r : Resources} {verbosity nCapacity : ℤ} {memory : Address}
    {held : Bool} {c : Constructed} {tr : List ObjectOp} {t : EpollObject}
    (h : IEpoll.construct r verbosity memory nCapacity held = some c)
    (hrun : objectMachine.Run ⟨c.object, .test⟩ tr t) :
    (∀ u ∈ objectMachine.record bufferUse ⟨c.object, .test⟩ tr, u.Sound c.allocated) ↔
      r.epoll_create nCapacity ≠ -1 ∨ (.wait ∉ tr ∧ (.delete ∈ tr → memory = NULL)) := by
  simp only [EpollObject.mem_record_iff hrun]
  by_cases hfail : r.epoll_create nCapacity = -1
  · obtain ⟨hnone, hevents⟩ := construct_of_fail hfail h
    have hunsound : ∀ u : BufferUse, ¬u.Sound c.allocated := by
      rintro (⟨events, maxevents⟩ | events) <;> simp [BufferUse.Sound, hnone]
    rw [hevents]
    constructor
    · intro hall
      refine Or.inr ⟨fun hwait => ?_, fun hdelete => ?_⟩
      · exact hunsound _ (hall _ (Or.inl ⟨hwait, rfl⟩))
      · by_contra hnull
        exact hunsound _ (hall _ (Or.inr ⟨hdelete, hnull, rfl⟩))
    · rintro (hok | ⟨hwait, hdelete⟩) u (⟨hmem, -⟩ | ⟨hmem, hnull, -⟩)
      · exact absurd hfail hok
      · exact absurd hfail hok
      · exact absurd hmem hwait
      · exact absurd (hdelete hmem) hnull
  · have hallocated := construct_of_created hfail h
    refine iff_of_true ?_ (Or.inl hfail)
    rintro u (⟨-, rfl⟩ | ⟨-, -, rfl⟩)
    · exact hallocated
    · exact ⟨_, hallocated⟩

/-- A limit without three descriptors for each thread and four besides gives a capacity that
`epoll_create` refuses. -/
theorem epoll_create_of_limit {files : Files} {content : List Byte} {g : SERVER}
    {rlim_cur : UInt64} {nCapacity : ℤ} {r : Resources} (h : Accepts files content g)
    (hr : r.Lawful) (hcap : GetWorkerCapacity g rlim_cur = some nCapacity)
    (hlimit : toInt rlim_cur.toNat < 3 * g.maxthreads + 4) : r.epoll_create nCapacity = -1 := by
  have hthreads : 0 < g.maxthreads := h.inRange.maxthreads
  have hpos : ¬0 < nCapacity := mt (workerCapacity_pos hthreads hcap).mp (not_le.mpr hlimit)
  exact hr _ (not_lt.mp hpos)

/-- A system where descriptors start at 3 and the heap at 4096. -/
def smallSystem : Resources where
  epoll_create size := if size ≤ 0 then -1 else 3
  new _ := some ⟨4096, by decide⟩

theorem lawful_smallSystem : smallSystem.Lawful := fun _ h => if_pos h

theorem event_buffer_iff_destroyed :
    (∀ u ∈ objectMachine.record bufferUse ⟨⟨3, 50, 4096⟩, .test⟩
        [.test false, .wait, .close, .delete], u.Sound (some ⟨4096, 50⟩)) ↔
      smallSystem.epoll_create 50 ≠ -1 ∨
        (.wait ∉ [ObjectOp.test false, .wait, .close, .delete] ∧
          (.delete ∈ [ObjectOp.test false, .wait, .close, .delete] → (77 : Address) = NULL)) :=
  have hbuilt : IEpoll.construct smallSystem MY_DEBUG 77 50 false =
      some ⟨⟨3, 50, 4096⟩, some ⟨4096, 50⟩, false⟩ := rfl
  event_buffer_iff hbuilt (.of_isSome _ rfl)

/-- With the default threads and a limit of 32 every worker waits on what its memory held. -/
theorem not_event_buffer :
    ¬∀ (files : Files) (content : List Byte) (g : SERVER) (rlim_cur : UInt64) (nCapacity : ℤ)
        (r : Resources) (memory : Address) (held : Bool) (c : Constructed)
        (tr : List ObjectOp) (t : EpollObject),
      Accepts files content g → GetWorkerCapacity g rlim_cur = some nCapacity → r.Lawful →
      IEpoll.construct r g.verbosity memory nCapacity held = some c →
      objectMachine.Run ⟨c.object, .test⟩ tr t →
        ∀ u ∈ objectMachine.record bufferUse ⟨c.object, .test⟩ tr, u.Sound c.allocated := by
  intro h
  have hcap : GetWorkerCapacity initServerConfig 32 = some 0 := by decide
  have hbuilt : IEpoll.construct smallSystem initServerConfig.verbosity 77 0 false =
      some ⟨⟨-1, 0, 77⟩, none, false⟩ := rfl
  have hsound := h (oneFile "") [] initServerConfig 32 0 smallSystem 77 false _
    [.test false, .wait] _ ⟨[], _, rfl, rfl, rfl⟩ hcap lawful_smallSystem hbuilt
    (.of_isSome _ rfl) (.epoll_wait 77 0) (by decide)
  cases hsound

end EpollThreads.Startup
