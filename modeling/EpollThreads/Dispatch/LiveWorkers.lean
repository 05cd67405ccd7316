import EpollThreads.Dispatch.ClientLimit

/-!
# Workers that failed at start-up

A worker without a thread or without an epoll descriptor stays in the pool with
a counter that never falls. For `AssignTask` to prefer worker `i` over all the
workers before it, each of these must have had a connection when it was counted,
so the limit keeps the dispatcher away from worker `i` as long as it is at most
`i`. Worker 1 is where the scan starts, and worker 0 needs only one connection.
-/

namespace EpollThreads.Dispatch

open Foundations Events

variable {n : ℕ} {maxclients : ℤ}

/-- `pthread_create` and `epoll_create` succeeded. -/
def Worker.Live (x : Worker) : Prop := x.pc ≠ .notStarted ∧ x.epfd ≠ -1

/-- The worker at an index has a positive counter. -/
def Busy (k : Fin n → ℤ) (i : ℕ) : Prop := ∃ w : Fin n, (w : ℕ) = i ∧ 1 ≤ k w

theorem Busy.mono {k k' : Fin n → ℤ} {i : ℕ} (h : Busy k' i) (hk : ∀ w, k' w ≤ k w) :
    Busy k i := by
  obtain ⟨w, hw, hone⟩ := h
  exact ⟨w, hw, hone.trans (hk w)⟩

namespace AssignPc

/-- A busy target has been paid for by one connection of every worker passed, a target
behind the first two workers by one of every worker in front of it. In a comparison, `c` is
what worker `i` was counted with. -/
def Paid (maxclients : ℤ) (k : Fin n → ℤ) : AssignPc → Prop
  | .count i target activeConns =>
      (Busy k target → 1 + i ≤ activeConns) ∧ (2 ≤ target → 1 + target ≤ activeConns)
  | .compare i target activeConns left right =>
      ∃ c : ℤ, 0 ≤ c ∧ (∀ w : Fin n, (w : ℕ) = i → k w ≤ c) ∧
        (∀ l ∈ left, 0 ≤ l ∧ l ≤ c) ∧
        (right = none → Busy k target → 1 + i + c ≤ activeConns) ∧
        (∀ r ∈ right, (1 ≤ r → 1 + i + c ≤ activeConns) ∧ (Busy k target → 1 ≤ r)) ∧
        (2 ≤ target → 1 + target + c ≤ activeConns)
  | .add target => 2 ≤ target → 1 + target ≤ maxclients
  | _ => True

variable {k k' : Fin n → ℤ}

theorem Paid.mono {pc : AssignPc} (h : pc.Paid maxclients k) (hk : ∀ w, k' w ≤ k w) :
    pc.Paid maxclients k' := by
  cases pc with
  | count i target activeConns => exact ⟨fun hb => h.1 (hb.mono hk), h.2⟩
  | compare i target activeConns left right =>
    obtain ⟨c, hc, hi, hl, hnone, hr, ht⟩ := h
    exact ⟨c, hc, fun w hw => (hk w).trans (hi w hw), hl, fun hn hb => hnone hn (hb.mono hk),
      fun r hmem => ⟨(hr r hmem).1, fun hb => (hr r hmem).2 (hb.mono hk)⟩, ht⟩
  | add target => exact h
  | _ => trivial

theorem paid_loopHead {i target : ℕ} {activeConns : ℤ} (hb : Busy k target → 1 + i ≤ activeConns)
    (ht : 2 ≤ target → 1 + target ≤ activeConns) :
    (loopHead n maxclients i target activeConns).Paid maxclients k := by
  unfold loopHead
  split_ifs with hi hm
  · exact ⟨hb, ht⟩
  · trivial
  · exact fun h2 => (ht h2).trans (not_lt.mp hm)

theorem paid_begin : (begin n maxclients).Paid maxclients k :=
  paid_loopHead (fun _ => by simp) (fun h => absurd h (by decide))

/-- Moving to worker `i` says that the old target was busy when its counter was read. -/
theorem paid_compared {i target : ℕ} {activeConns l r c : ℤ}
    (hi : ∀ w : Fin n, (w : ℕ) = i → k w ≤ c)
    (hl : 0 ≤ l ∧ l ≤ c) (hr : 1 ≤ r → 1 + i + c ≤ activeConns) (hbusy : Busy k target → 1 ≤ r)
    (ht : 2 ≤ target → 1 + target + c ≤ activeConns) :
    (compared n maxclients i target activeConns l r).Paid maxclients k := by
  unfold compared
  split_ifs with hlt
  · have hpaid := hr (by omega)
    refine paid_loopHead ?_ fun _ => by omega
    rintro ⟨w, hw, hone⟩
    have hcount := hi w hw
    push_cast
    omega
  · refine paid_loopHead (fun hb => ?_) fun h2 => by have := ht h2; omega
    have hone := hbusy hb
    have hpaid := hr hone
    push_cast
    omega

theorem Paid.afterRead {pc pc' : AssignPc} {r : CounterRead} {w : Fin n}
    (h : pc.Paid maxclients k) (hnonneg : ∀ w, 0 ≤ k w) (hw : pc.reads r = some (w : ℕ))
    (hr : pc.afterRead n maxclients r (k w) = some pc') : pc'.Paid maxclients k := by
  have hv := hnonneg w
  cases afterRead_cases hr with
  | count =>
    obtain rfl := Option.some.inj hw
    obtain ⟨hb, ht⟩ := h
    refine ⟨k w, hv, fun w' hw' => (Fin.ext hw' ▸ le_rfl), by simp, fun _ hbusy => ?_, by simp,
      fun h2 => ?_⟩
    · have := hb hbusy
      omega
    · have := ht h2
      omega
  | leftFirst =>
    obtain rfl := Option.some.inj hw
    obtain ⟨c, hc, hi, -, hnone, hright, ht⟩ := h
    exact ⟨c, hc, hi, by simpa using ⟨hv, hi w rfl⟩, hnone, hright, ht⟩
  | rightFirst =>
    obtain rfl := Option.some.inj hw
    obtain ⟨c, hc, hi, hl, hnone, -, ht⟩ := h
    refine ⟨c, hc, hi, hl, by simp, ?_, ht⟩
    rintro _ ⟨⟩
    refine ⟨fun hone => hnone rfl ⟨w, rfl, hone⟩, ?_⟩
    rintro ⟨w', hw', hone⟩
    rwa [Fin.ext hw'] at hone
  | leftLast =>
    obtain rfl := Option.some.inj hw
    obtain ⟨c, hc, hi, -, -, hright, ht⟩ := h
    obtain ⟨hr1, hr2⟩ := hright _ rfl
    exact paid_compared hi ⟨hv, hi w rfl⟩ hr1 hr2 ht
  | rightLast =>
    obtain rfl := Option.some.inj hw
    obtain ⟨c, hc, hi, hl, hnone, -, ht⟩ := h
    refine paid_compared hi (hl _ rfl) (fun hone => hnone rfl ⟨w, rfl, hone⟩) ?_ ht
    rintro ⟨w', hw', hone⟩
    rwa [Fin.ext hw'] at hone

end AssignPc

theorem WorkerPc.dispatch_ne_notStarted (nRet : ℤ) (events : List Event) :
    dispatch nRet events ≠ .notStarted := by
  rcases dispatch_cases nRet events with hd | ⟨ev, stage, rest, hd, -, -⟩ <;> simp [hd]

theorem Worker.resume_ne_notStarted (x : Worker) (ev : Event) (rest : List Event) (p : Pass) :
    (x.resume ev rest p).pc ≠ .notStarted := by
  cases hs : p.stage with
  | none => simpa [resume, hs] using WorkerPc.dispatch_ne_notStarted p.nRet rest
  | some stage => simp [resume, hs]

namespace Server

variable {s s₀ t : Server n} {tr : List (Action n)}

theorem live_setWorker {w : Fin n} {x : Worker} (v : Fin n) (he : x.epfd = (s.workers w).epfd)
    (hpc : x.pc = .notStarted ↔ (s.workers w).pc = .notStarted) :
    ((s.setWorker w x).workers v).Live ↔ (s.workers v).Live := by
  by_cases hv : v = w
  · subst hv
    simp [Worker.Live, he, hpc]
  · simp [hv]

theorem live_closeFd (fd : Fd) (v : Fin n) :
    ((s.closeFd fd).workers v).Live ↔ (s.workers v).Live := by
  unfold closeFd
  split <;> rfl

/-- A worker that failed at start-up stays as it is, and no other one fails later. -/
theorem live_step {a : Action n} (ht : Transition maxclients s a t) (v : Fin n) :
    (t.workers v).Live ↔ (s.workers v).Live := by
  cases ht with
  | shutdown | listenerTest | listenFails | accept | read | addFail => rfl
  | refuse => exact live_closeFd _ v
  | @addOk sockfd w c hl hc he hr =>
    exact live_setWorker (s := s)
      (x := (s.workers w).insert sockfd ⟨c, addEvents .write .edgeTriggered⟩) v rfl Iff.rfl
  | @increment sockfd w hl =>
    exact live_setWorker (s := s) (x := (s.workers w).increment) v rfl Iff.rfl
  | workerTest hpc =>
    refine live_setWorker v rfl ?_
    split <;> simp [hpc]
  | wait hpc =>
    refine live_setWorker v rfl ?_
    simp [hpc, WorkerPc.dispatch_ne_notStarted]
  | quiet hpc | modOk hpc =>
    refine live_setWorker v rfl ?_
    simp [hpc, Worker.resume_ne_notStarted]
  | delOk hpc | delFail hpc => exact live_setWorker v rfl (by simp [hpc])
  | @close w ev deleted rest hpc =>
    refine Iff.trans ?_ (live_closeFd ev.fd v)
    refine live_setWorker v rfl ?_
    simp [hpc]
  | dec hpc =>
    refine live_setWorker v rfl ?_
    simp [hpc, WorkerPc.dispatch_ne_notStarted]

theorem live_of_run (h : (serverMachine n maxclients).Run s₀ tr s) (v : Fin n) :
    (s.workers v).Live ↔ (s₀.workers v).Live := by
  induction h with
  | nil => rfl
  | snoc hrun hstep ih => exact (live_step (step_cases hstep) v).trans ih

theorem counts_nonneg (h : (serverMachine n maxclients).Reaches tr s)
    (hl : s.listener.adding = none) (w : Fin n) : 0 ≤ s.counts w := by
  have hb := Balanced.of_reaches h w
  have hp : s.pendingIncrement w = 0 := by simp [pendingIncrement, hl]
  have hd := (s.workers w).pendingDecrement_range.1
  unfold Worker.excess at hb
  unfold counts
  omega

/-- The call in progress has paid for its target. -/
def CallPaid (maxclients : ℤ) (s : Server n) : Prop :=
  ∀ sockfd pc, s.listener = .assigning sockfd pc → pc.Paid maxclients s.counts

theorem CallPaid.step (hreach : (serverMachine n maxclients).Reaches tr s)
    (h : CallPaid maxclients s) {a : Action n} (ht : Transition maxclients s a t) :
    CallPaid maxclients t := by
  intro sockfd pc' hl
  by_cases ha : ∃ fd, a = .accept fd
  · obtain ⟨fd, rfl⟩ := ha
    cases ht
    obtain ⟨rfl, rfl⟩ := ListenerPc.assigning.inj hl
    exact AssignPc.paid_begin
  · obtain ⟨pc, hs, hle, hpc⟩ := call_step ht (not_exists.mp ha) hl
    have hpaid := h sockfd pc hs
    rcases hpc with rfl | ⟨target, -, rfl⟩ | ⟨r, w, hw, hr⟩
    · exact hpaid.mono hle
    · trivial
    · have hadding : s.listener.adding = none := by
        rw [hs]
        exact ListenerPc.adding_choosing (AssignPc.choosing_afterRead hr).1
      exact (hpaid.afterRead (counts_nonneg hreach hadding) hw hr).mono hle

theorem CallPaid.of_reaches (h : (serverMachine n maxclients).Reaches tr s) :
    CallPaid maxclients s :=
  h.history (Q := fun _ s => CallPaid maxclients s)
    (fun hs sockfd pc hl => by simp [hs.listener] at hl)
    fun hr hs hstep => hs.step hr (step_cases hstep)

/-- The workers that the dispatcher never selects, sound or not. -/
def OutOfReach (maxclients : ℤ) (w : ℕ) : Prop := maxclients ≤ 0 ∨ 2 ≤ w ∧ maxclients ≤ w

/-- Where every failed worker is out of reach, none of them is selected. -/
theorem live_of_selected (hs : s₀.Start) (hrun : (serverMachine n maxclients).Run s₀ tr s)
    (hfail : ∀ w : Fin n, ¬(s₀.workers w).Live → OutOfReach maxclients w)
    {sockfd : Fd} {w : Fin n} (hl : s.listener = .assigning sockfd (.add w)) :
    (s.workers w).Live := by
  have hreach : (serverMachine n maxclients).Reaches tr s := ⟨s₀, hs, hrun⟩
  rw [live_of_run hrun w]
  by_contra hdead
  rcases hfail w hdead with hclosed | ⟨htwo, hlimit⟩
  · -- a limit of 0 turns the first connection away
    have hcovers : 1 + ∑ w, s.counts w ≤ maxclients := CallCovers.of_reaches hreach sockfd _ hl
    have hadding : s.listener.adding = none := by rw [hl]; rfl
    have hsum : 0 ≤ ∑ w, s.counts w :=
      Finset.sum_nonneg fun w _ => counts_nonneg hreach hadding w
    omega
  · have hpaid : 2 ≤ (w : ℕ) → 1 + ((w : ℕ) : ℤ) ≤ maxclients :=
      CallPaid.of_reaches hreach sockfd _ hl
    have hroom := hpaid htwo
    omega

end Server
end EpollThreads.Dispatch
