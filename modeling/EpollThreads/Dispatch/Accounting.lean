import EpollThreads.Dispatch.Ownership

/-!
# What a connection counter counts

The listener registers a socket before it increments the worker's counter, and
`iClose` deregisters before it decrements. The counter is therefore the size of
the interest list up to one registration and one removal still to be counted,
and this is exact at every point of every interleaving.
-/

namespace EpollThreads.Dispatch

open Foundations Events

/-- The worker whose counter the listener has still to increment. -/
def ListenerPc.adding : ListenerPc → Option ℕ
  | .assigning _ (.increment target) => some target
  | _ => none

theorem ListenerPc.adding_choosing {sockfd : Fd} {pc : AssignPc} (h : pc.Choosing) :
    (ListenerPc.assigning sockfd pc).adding = none := by
  cases pc with
  | increment | returned => exact h.elim
  | _ => rfl

/-- `iClose` has removed its descriptor and not yet decremented. -/
def WorkerPc.removed : WorkerPc → Bool
  | .event _ (.close deleted) _ => deleted
  | .event _ .dec _ => true
  | _ => false

theorem WorkerPc.removed_event {ev : Event} {stage : Stage} {rest : List Event}
    (h : StillRegistered stage) : (WorkerPc.event ev stage rest).removed = false := by
  cases stage <;> first | rfl | exact h.elim

theorem WorkerPc.removed_dispatch (nRet : ℤ) (events : List Event) :
    (dispatch nRet events).removed = false := by
  rcases dispatch_cases nRet events with hd | ⟨ev, stage, rest, hd, -, hb⟩ <;> rw [hd]
  · rfl
  · exact removed_event (stillRegistered_beginEvent stage hb)

namespace Worker

def pendingDecrement (x : Worker) : ℤ := if x.pc.removed then 1 else 0

theorem pendingDecrement_range (x : Worker) :
    0 ≤ x.pendingDecrement ∧ x.pendingDecrement ≤ 1 := by
  unfold pendingDecrement
  split_ifs <;> decide

/-- How far the counter is above what it should count. -/
def excess (x : Worker) : ℤ := x.activeConns - x.registered.card - x.pendingDecrement

variable {x : Worker}

/-- A move between points with nothing removed. -/
theorem excess_congr {y : Worker} (ha : y.activeConns = x.activeConns)
    (hr : y.registered = x.registered) (hy : y.pc.removed = false) (hx : x.pc.removed = false) :
    y.excess = x.excess := by
  simp [excess, pendingDecrement, ha, hr, hy, hx]

theorem removed_resume {ev : Event} {rest : List Event} {p : Pass}
    (hp : ∀ stage ∈ p.stage, StillRegistered stage) : (x.resume ev rest p).pc.removed = false := by
  unfold resume
  cases hs : p.stage with
  | none => exact WorkerPc.removed_dispatch _ _
  | some stage => exact WorkerPc.removed_event (hp stage hs)

theorem excess_delOk {ev : Event} {rest : List Event} (hpc : x.pc = .event ev .del rest)
    (hreg : ev.fd ∈ x.registered) :
    { x.remove ev.fd with pc := .event ev (.close true) rest : Worker }.excess = x.excess := by
  have hcard := Finset.card_erase_add_one hreg
  simp only [excess, pendingDecrement, remove, WorkerPc.removed, hpc, if_true,
    Bool.false_eq_true, if_false]
  omega

theorem excess_delFail {ev : Event} {rest : List Event} (hpc : x.pc = .event ev .del rest) :
    { x with pc := .event ev (.close false) rest : Worker }.excess = x.excess :=
  excess_congr rfl rfl rfl (by rw [hpc]; rfl)

/-- The removal happens at the deletion or, when that failed, at the `close`. -/
theorem excess_close {ev : Event} {deleted : Bool} {rest : List Event}
    (hpc : x.pc = .event ev (.close deleted) rest)
    (hreg : ev.fd ∈ x.registered ↔ deleted = false) :
    { x.remove ev.fd with pc := .event ev .dec rest : Worker }.excess = x.excess := by
  cases deleted with
  | true =>
    have hmem : ev.fd ∉ x.registered := by simp [hreg]
    simp [excess, pendingDecrement, remove, WorkerPc.removed, hpc,
      Finset.erase_eq_of_notMem hmem]
  | false =>
    have hcard := Finset.card_erase_add_one (hreg.mpr rfl)
    simp only [excess, pendingDecrement, remove, WorkerPc.removed, hpc, if_true,
      Bool.false_eq_true, if_false]
    omega

theorem excess_dec {ev : Event} {rest : List Event} {nRet : ℤ} (hpc : x.pc = .event ev .dec rest) :
    { x.decrement with pc := .dispatch nRet rest : Worker }.excess = x.excess := by
  have hx : x.pendingDecrement = 1 := by simp [pendingDecrement, hpc, WorkerPc.removed]
  have hy : { x.decrement with pc := .dispatch nRet rest : Worker }.pendingDecrement = 0 := by
    simp [pendingDecrement, WorkerPc.removed_dispatch]
  simp only [excess, hx, hy]
  simp only [decrement]
  omega

theorem excess_insert {fd : Fd} {r : Registration} (hreg : fd ∉ x.registered) :
    (x.insert fd r).excess = x.excess - 1 := by
  have hp : (x.insert fd r).pendingDecrement = x.pendingDecrement := rfl
  have hcard := Finset.card_insert_of_notMem hreg
  simp only [excess, hp]
  simp only [insert, hcard]
  omega

theorem excess_increment : x.increment.excess = x.excess + 1 := by
  have hp : x.increment.pendingDecrement = x.pendingDecrement := rfl
  simp only [excess, hp]
  simp only [increment]
  omega

end Worker

namespace Server

variable {n : ℕ} {maxclients : ℤ} {s t : Server n}

def pendingIncrement (s : Server n) (w : Fin n) : ℤ :=
  if s.listener.adding = some (w : ℕ) then 1 else 0

theorem pendingIncrement_range (s : Server n) (w : Fin n) :
    0 ≤ s.pendingIncrement w ∧ s.pendingIncrement w ≤ 1 := by
  unfold pendingIncrement
  split_ifs <;> decide

/-- The accounting law. -/
def Balanced (s : Server n) : Prop := ∀ w, (s.workers w).excess = -s.pendingIncrement w

namespace Balanced

theorem setListener (h : Balanced s) {l : ListenerPc} (hl : l.adding = s.listener.adding) :
    Balanced { s with listener := l } := by
  intro w
  simp only [h w, pendingIncrement, hl]

theorem setWorker (h : Balanced s) {w : Fin n} {x : Worker}
    (hx : x.excess = (s.workers w).excess) : Balanced (s.setWorker w x) := by
  intro w'
  by_cases hw : w' = w
  · subst hw
    simp only [setWorker_workers, Function.update_self, hx]
    exact h w'
  · simp only [setWorker_workers, Function.update_of_ne hw]
    exact h w'

theorem handOver (h : Balanced s) {w : Fin n} {x : Worker} {l : ListenerPc}
    (hx : x.excess = -if l.adding = some (w : ℕ) then 1 else 0)
    (hl : ∀ w', w' ≠ w → s.listener.adding ≠ some (w' : ℕ) ∧ l.adding ≠ some (w' : ℕ)) :
    Balanced { s.setWorker w x with listener := l } := by
  intro w'
  by_cases hw : w' = w
  · subst hw
    simpa [pendingIncrement] using hx
  · have hw' := h w'
    simpa [pendingIncrement, hw, (hl w' hw).1, (hl w' hw).2] using hw'

theorem step (h : Balanced s) (ho : Owned s) {a : Action n} (ht : Transition maxclients s a t) :
    Balanced t := by
  cases ht with
  | shutdown => exact h
  | listenerTest hl =>
    apply h.setListener
    rw [hl]
    split <;> rfl
  | listenFails hl => exact h.setListener (by rw [hl]; rfl)
  | @accept fd hl hfd =>
    have hb : (ListenerPc.assigning fd (.begin n maxclients)).adding = none :=
      ListenerPc.adding_choosing AssignPc.choosing_loopHead
    exact h.setListener (l := .assigning fd (.begin n maxclients)) (by rw [hb, hl]; rfl)
  | read hl _ hpc =>
    obtain ⟨hc, hc'⟩ := AssignPc.choosing_afterRead hpc
    apply h.setListener
    rw [hl, ListenerPc.adding_choosing hc, ListenerPc.adding_choosing hc']
  | @refuse sockfd hl =>
    obtain ⟨⟨c, hc⟩, hw⟩ := ho.assigned hl trivial
    rw [closeFd_eq hc]
    intro w
    simp only [Worker.remove_eq (hw w)]
    exact h.setListener (l := .test) (by rw [hl]; rfl) w
  | @addOk sockfd w c hl hc he hr =>
    have hw := h w
    apply h.handOver
    · simp only [pendingIncrement, hl, ListenerPc.adding] at hw
      simp [Worker.excess_insert hr, hw, ListenerPc.adding]
    · intro w' hne
      have hv : (w : ℕ) ≠ w' := fun hv => hne (Fin.ext hv.symm)
      simp [hl, ListenerPc.adding, hv]
  | addFail hl => exact h.setListener (by rw [hl]; rfl)
  | @increment sockfd w hl =>
    have hw := h w
    apply h.handOver
    · simp only [pendingIncrement, hl, ListenerPc.adding] at hw
      simp [Worker.excess_increment, hw, ListenerPc.adding]
    · intro w' hne
      have hv : (w : ℕ) ≠ w' := fun hv => hne (Fin.ext hv.symm)
      simp [hl, ListenerPc.adding, hv]
  | workerTest hpc =>
    refine h.setWorker (Worker.excess_congr rfl rfl ?_ (by rw [hpc]; rfl))
    split <;> rfl
  | wait hpc =>
    exact h.setWorker (Worker.excess_congr rfl rfl (WorkerPc.removed_dispatch _ _)
      (by rw [hpc]; rfl))
  | quiet hpc hq hp =>
    obtain ⟨hst, hst'⟩ := stillRegistered_advance (Or.inl hq) hp
    exact h.setWorker (Worker.excess_congr rfl rfl (Worker.removed_resume hst')
      (by rw [hpc]; exact WorkerPc.removed_event hst))
  | modOk hpc hp =>
    obtain ⟨hst, hst'⟩ := stillRegistered_advance (Or.inr rfl) hp
    exact h.setWorker (Worker.excess_congr rfl rfl (Worker.removed_resume hst')
      (by rw [hpc]; exact WorkerPc.removed_event hst))
  | delOk hpc hreg => exact h.setWorker (Worker.excess_delOk hpc hreg)
  | delFail hpc => exact h.setWorker (Worker.excess_delFail hpc)
  | @close w ev deleted rest hpc =>
    obtain ⟨-, hc, hreg, hno⟩ := ho.closing hpc
    rw [closeFd_eq hc]
    intro w'
    by_cases hw : w' = w
    · subst hw
      simp only [setWorker_workers, Function.update_self, Worker.excess_close hpc hreg]
      exact h w'
    · simp only [setWorker_workers, Function.update_of_ne hw, Worker.remove_eq (hno w' hw)]
      exact h w'
  | dec hpc => exact h.setWorker (Worker.excess_dec hpc)

theorem of_start (h : Start s) : Balanced s := by
  intro w
  obtain ⟨ha, hreg, -, hpc⟩ := h.worker w
  rcases hpc with hpc | hpc <;>
    simp [Worker.excess, Worker.pendingDecrement, pendingIncrement, ha, hreg, hpc, h.listener,
      WorkerPc.removed, ListenerPc.adding]

theorem of_reaches {tr : List (Action n)} (h : (serverMachine n maxclients).Reaches tr s) :
    Balanced s :=
  (h.invariant (I := fun s => Owned s ∧ Balanced s)
    (fun hs => ⟨.of_start hs, .of_start hs⟩)
    (fun hs hstep => ⟨hs.1.step (step_cases hstep), hs.2.step hs.1 (step_cases hstep)⟩)).2

end Balanced

/-- Exact connection accounting, in every reachable state and for every worker. -/
theorem activeConns_eq {tr : List (Action n)} (h : (serverMachine n maxclients).Reaches tr s)
    (w : Fin n) :
    (s.workers w).activeConns =
      (s.workers w).registered.card - s.pendingIncrement w + (s.workers w).pendingDecrement := by
  have hb := Balanced.of_reaches h w
  unfold Worker.excess at hb
  omega

/-- The counter reads of one `AssignTask` over two workers. -/
def scan : List (Action 2) :=
  [.assign (.read .count), .assign (.read .left), .assign (.read .right),
    .assign (.read .count), .assign (.read .left), .assign (.read .right)]

/-- The listener of an idle pool accepts `fd` and gives it to worker 1. -/
def connect (fd : Fd) : List (Action 2) :=
  [.listenerTest, .accept fd] ++ scan ++ [.assign (.add true), .assign .increment]

/-- Worker 1 gets an error event for `fd` and removes it. -/
def hangUp (fd : Fd) : List (Action 2) :=
  [.workerTest 1, .wait 1 [(fd, EPOLLERR)], .handle 1 .error, .handle 1 (.del true)]

theorem activeConns_eq_hangUp :
    ∃ s : Server 2, (serverMachine 2 10).Reaches (connect 7 ++ hangUp 7) s ∧
      (s.workers 1).pendingDecrement = 1 ∧ (s.workers 1).activeConns =
        (s.workers 1).registered.card - s.pendingIncrement 1 +
          (s.workers 1).pendingDecrement := by
  have h := Machine.Reaches.of_isSome (M := serverMachine 2 10)
    (start_initial (n := 2)) (connect 7 ++ hangUp 7) (by decide)
  exact ⟨_, h, by decide, activeConns_eq h 1⟩

/-- A counter is -1 at worst, and is so exactly while the listener has still to count a
connection of a worker that has lost all of its connections. -/
theorem activeConns_neg_iff {tr : List (Action n)} (h : (serverMachine n maxclients).Reaches tr s)
    (w : Fin n) :
    -1 ≤ (s.workers w).activeConns ∧
      ((s.workers w).activeConns < 0 ↔
        s.pendingIncrement w = 1 ∧ (s.workers w).registered = ∅ ∧
          (s.workers w).pendingDecrement = 0) := by
  have hb := Balanced.of_reaches h w
  unfold Worker.excess at hb
  obtain ⟨hinc, hinc'⟩ := s.pendingIncrement_range w
  obtain ⟨hdec, hdec'⟩ := (s.workers w).pendingDecrement_range
  rw [← Finset.card_eq_zero]
  omega

/-- Worker 1 closes `fd` before the listener has counted it. -/
def closedEarly (fd : Fd) : List (Action 2) :=
  [.listenerTest, .accept fd] ++ scan ++ [.assign (.add true)] ++ hangUp fd ++
    [.handle 1 .close, .handle 1 .dec]

theorem activeConns_neg_iff_closedEarly :
    ∃ s : Server 2, (serverMachine 2 10).Reaches (closedEarly 7) s ∧
      s.pendingIncrement 1 = 1 ∧ (s.workers 1).registered = ∅ ∧
        (s.workers 1).activeConns = -1 := by
  have h := Machine.Reaches.of_isSome (M := serverMachine 2 10)
    (start_initial (n := 2)) (closedEarly 7) (by decide)
  obtain ⟨hle, hneg⟩ := activeConns_neg_iff h 1
  have hlt := hneg.mpr ⟨rfl, rfl, rfl⟩
  exact ⟨_, h, rfl, rfl, by omega⟩

/-- The counter of a worker that is quicker than the listener is negative for a moment. -/
theorem not_activeConns_nonneg :
    ¬∀ (n : ℕ) (maxclients : ℤ) (tr : List (Action n)) (s : Server n), 2 ≤ n →
      (serverMachine n maxclients).Reaches tr s → s.shutdown = false →
        ∀ w, 0 ≤ (s.workers w).activeConns := by
  intro h
  have hreach := Machine.Reaches.of_isSome (M := serverMachine 2 10)
    (start_initial (n := 2)) (closedEarly 7) (by decide)
  exact absurd (h 2 10 _ _ le_rfl hreach (by decide) 1) (by decide)

end Server
end EpollThreads.Dispatch
