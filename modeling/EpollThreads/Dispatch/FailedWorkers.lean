import EpollThreads.Dispatch.LiveWorkers

/-!
# How a failed worker is selected

With no connection closed in between, the dispatcher goes through the pool in a fixed order:
worker 1, worker 0, and then the others as they come. The first failed worker in this order is
selected as soon as all before it have one connection, if the limit admits one more.
-/

namespace EpollThreads.Dispatch

open Foundations Events

variable {n : ℕ} {maxclients : ℤ}

/-- The order in which the workers get their first connection; it is its own inverse. -/
def turn : ℕ → ℕ
  | 0 => 1
  | 1 => 0
  | i + 2 => i + 2

@[simp] theorem turn_turn (i : ℕ) : turn (turn i) = i := by
  match i with
  | 0 | 1 | i + 2 => rfl

theorem turn_lt (hn : 2 ≤ n) {i : ℕ} (h : i < n) : turn i < n := by
  match i with
  | 0 => exact hn
  | 1 => simp only [turn]; omega
  | i + 2 => exact h

/-- The scan of `m` workers from worker `i` on, when the counters `k` do not change. -/
def scanned (k : ℕ → ℤ) : ℕ → ℕ → ℕ → ℤ → ℕ × ℤ
  | 0, _, target, activeConns => (target, activeConns)
  | m + 1, i, target, activeConns =>
      scanned k m (i + 1) (if k i < k target then i else target) (activeConns + k i)

theorem scanned_add {k : ℕ → ℤ} (m m' i target : ℕ) (activeConns : ℤ) :
    scanned k (m + m') i target activeConns =
      scanned k m' (i + m) (scanned k m i target activeConns).1
        (scanned k m i target activeConns).2 := by
  induction m generalizing i target activeConns with
  | zero => simp [scanned]
  | succ m ih =>
    rw [Nat.add_right_comm, scanned, scanned, ih, Nat.add_assoc, Nat.add_comm 1 m]

theorem scanned_const {k : ℕ → ℤ} {c : ℤ} {m i target : ℕ} {activeConns : ℤ}
    (hk : ∀ x, i ≤ x → x < i + m → k x = c) (ht : k target ≤ c) :
    scanned k m i target activeConns = (target, activeConns + m * c) := by
  induction m generalizing i activeConns with
  | zero => simp [scanned]
  | succ m ih =>
    have hi : k i = c := hk i le_rfl (by omega)
    rw [scanned, if_neg (by omega), ih (fun x h1 h2 => hk x (by omega) (by omega)), hi]
    push_cast
    congr 1
    ring

/-- The first `j` in the order have one connection each. -/
def filledCounts (j i : ℕ) : ℤ := if turn i < j then 1 else 0

theorem filledCounts_of_le {j i : ℕ} (h : j ≤ turn i) : filledCounts j i = 0 :=
  if_neg (not_lt.mpr h)

theorem filledCounts_of_lt {j i : ℕ} (h : turn i < j) : filledCounts j i = 1 := if_pos h

theorem turn_lt_iff {j i : ℕ} (hj : 2 ≤ j) : turn i < j ↔ i < j := by
  match i with
  | 0 | 1 => simp only [turn]; omega
  | i + 2 => rfl

theorem turn_of_two_le {i : ℕ} (h : 2 ≤ i) : turn i = i := by
  match i, h with
  | i + 2, _ => rfl

/-- What `AssignTask` finds when the first `j` have one connection each. -/
theorem scanned_filled {j : ℕ} (hn : 2 ≤ n) (hj : j < n) :
    scanned (filledCounts j) n 0 1 1 = (turn j, (1 + j : ℤ)) := by
  match j with
  | 0 =>
    rw [scanned_const (c := 0) (fun x _ _ => filledCounts_of_le (Nat.zero_le _))
      (filledCounts_of_le (Nat.zero_le _)).le]
    simp [turn]
  | 1 =>
    obtain ⟨m, rfl⟩ := Nat.exists_eq_add_of_le hn
    have hzero : filledCounts 1 0 = 0 := rfl
    have hone : filledCounts 1 1 = 1 := rfl
    rw [Nat.add_comm 2 m, scanned, scanned, hzero, hone, if_pos one_pos, hzero, if_neg (by decide)]
    rw [scanned_const (c := 0) ?_ hzero.le]
    · simp [turn]
    · intro x hx _
      apply filledCounts_of_le
      match x, hx with
      | x + 2, _ => simp [turn]
  | j + 2 =>
    obtain ⟨m, rfl⟩ := Nat.exists_eq_add_of_lt hj
    have hbusy {x : ℕ} (hx : x < j + 2) : filledCounts (j + 2) x = 1 :=
      filledCounts_of_lt ((turn_lt_iff (by omega)).mpr hx)
    have hidle {x : ℕ} (hx : j + 2 ≤ x) : filledCounts (j + 2) x = 0 :=
      filledCounts_of_le (not_lt.mp ((turn_lt_iff (by omega)).not.mpr (by omega)))
    have hfirst : scanned (filledCounts (j + 2)) (j + 2) 0 1 1 = (1, 1 + ((j + 2 : ℕ) : ℤ) * 1) :=
      scanned_const (c := 1) (fun x _ hx => hbusy (by omega)) (hbusy (by omega)).le
    have hlast (activeConns : ℤ) :
        scanned (filledCounts (j + 2)) m (j + 2 + 1) (j + 2) activeConns =
          (j + 2, activeConns + m * 0) :=
      scanned_const (fun x hx _ => hidle (by omega)) (hidle le_rfl).le
    rw [Nat.add_assoc, scanned_add, hfirst, scanned, Nat.zero_add, hidle le_rfl, hbusy (by omega),
      if_pos one_pos, hlast]
    simp [turn]

namespace Server

variable {s s₀ u : Server n}

/-- The server in the middle of a call. -/
def assigning (u : Server n) (fd : Fd) (pc : AssignPc) : Server n :=
  { u with listener := .assigning fd pc }

theorem step_read {fd : Fd} {pc pc' : AssignPc} {r : CounterRead} {i : ℕ} {v : ℤ}
    (hi : pc.reads r = some i) (hv : u.counter i = some v)
    (hr : pc.afterRead n maxclients r v = some pc') :
    (serverMachine n maxclients).step (u.assigning fd pc) (.assign (.read r)) =
      some (u.assigning fd pc') := by
  have hstep : pc.step n maxclients u.counter (.read r) = some pc' := by
    cases pc <;> simpa [AssignPc.step, hi, hv] using hr
  have heffect : (u.assigning fd pc).assignEffect fd pc (.read r) = some (u.assigning fd pc) := by
    cases pc <;> rfl
  change ((pc.step n maxclients u.counter (.read r)).bind fun pc' =>
    ((u.assigning fd pc).assignEffect fd pc (.read r)).map fun t =>
      { t with listener := listenerAfter fd pc' }) = _
  rw [hstep, heffect]
  simp [listenerAfter_read hr, assigning]

theorem run_round (maxclients : ℤ) {k : ℕ → ℤ}
    (hk : ∀ w : Fin n, (u.workers w).activeConns = k w) (fd : Fd)
    {i target : ℕ} (activeConns : ℤ) (hi : i < n) (ht : target < n) :
    ∃ tr, (serverMachine n maxclients).Run
      (u.assigning fd (.loopHead n maxclients i target activeConns)) tr
      (u.assigning fd (.loopHead n maxclients (i + 1) (if k i < k target then i else target)
        (activeConns + k i))) := by
  have hcounter {x : ℕ} (hx : x < n) : u.counter x = some (k x) := by
    simp [counter, hx, hk]
  have hhead : AssignPc.loopHead n maxclients i target activeConns =
      .count i target activeConns := if_pos hi
  rw [hhead]
  have hcount : (serverMachine n maxclients).step (u.assigning fd (.count i target activeConns))
      (.assign (.read .count)) =
        some (u.assigning fd (.compare i target (activeConns + k i) none none)) :=
    step_read rfl (hcounter hi) rfl
  have hleft : (serverMachine n maxclients).step
      (u.assigning fd (.compare i target (activeConns + k i) none none)) (.assign (.read .left)) =
        some (u.assigning fd (.compare i target (activeConns + k i) (some (k i)) none)) :=
    step_read rfl (hcounter hi) rfl
  have hright : (serverMachine n maxclients).step
      (u.assigning fd (.compare i target (activeConns + k i) (some (k i)) none))
      (.assign (.read .right)) =
        some (u.assigning fd (.compared n maxclients i target (activeConns + k i) (k i)
          (k target))) :=
    step_read rfl (hcounter ht) rfl
  exact ⟨_, (Machine.Run.single hcount).append ((Machine.Run.single hleft).append
    (Machine.Run.single hright))⟩

theorem run_scan (maxclients : ℤ) {k : ℕ → ℤ} (hk : ∀ w : Fin n, (u.workers w).activeConns = k w)
    (fd : Fd) {m i target : ℕ} (activeConns : ℤ) (hi : i + m = n) (ht : target < n) :
    ∃ tr, (serverMachine n maxclients).Run
      (u.assigning fd (.loopHead n maxclients i target activeConns)) tr
      (u.assigning fd (.loopHead n maxclients n (scanned k m i target activeConns).1
        (scanned k m i target activeConns).2)) := by
  induction m generalizing i target activeConns with
  | zero =>
    obtain rfl : i = n := hi
    exact ⟨[], .nil _⟩
  | succ m ih =>
    obtain ⟨tr, hround⟩ := run_round maxclients hk fd activeConns
      (show i < n by omega) ht
    obtain ⟨tr', hrest⟩ := ih (activeConns + k i) (show i + 1 + m = n by omega)
      (show (if k i < k target then i else target) < n by split_ifs <;> omega)
    exact ⟨_, hround.append hrest⟩

/-- A new connection behind `fd`. -/
def opened (s : Server n) (fd : Fd) : Server n :=
  { s with files := Function.update s.files fd (some s.accepted), accepted := s.accepted + 1 }

theorem run_accept (maxclients : ℤ) (hrunning : s.shutdown = false) (hl : s.listener = .test)
    {fd : Fd} (hfd : s.files fd = none) :
    (serverMachine n maxclients).Run s [.listenerTest, .accept fd]
      ((s.opened fd).assigning fd (.loopHead n maxclients 0 1 1)) := by
  refine .of_exec ?_
  simp [Machine.exec, serverMachine, step, hl, hrunning, hfd, opened, assigning, AssignPc.begin]

/-- The first `j` workers in the order have one connection each, and nothing else has
happened. -/
structure Filled (s₀ : Server n) (j : ℕ) (s : Server n) : Prop where
  running : s.shutdown = false
  listener : s.listener = .test
  counted : ∀ w : Fin n, (s.workers w).activeConns = filledCounts j w
  kept : ∀ w, (s.workers w).pc = (s₀.workers w).pc ∧ (s.workers w).epfd = (s₀.workers w).epfd
  free : ∀ fd, j ≤ fd → s.files fd = none ∧ ∀ w, fd ∉ (s.workers w).registered
  held : ∀ w : Fin n, turn w < j → turn w ∈ (s.workers w).registered

theorem Start.filled (h : s₀.Start) : Filled s₀ 0 s₀ where
  running := h.running
  listener := h.listener
  counted w := (h.worker w).1.trans (filledCounts_of_le (Nat.zero_le _)).symm
  kept _ := ⟨rfl, rfl⟩
  free fd _ := ⟨h.files fd, fun w => by simp [(h.worker w).2.1]⟩
  held _ hw := absurd hw (Nat.not_lt_zero _)

/-- The next connection goes to the next worker in the order. -/
theorem Filled.select {j : ℕ} (h : Filled s₀ j s) (hn : 2 ≤ n) (hj : j < n)
    (hlimit : 1 + (j : ℤ) ≤ maxclients) :
    ∃ tr, (serverMachine n maxclients).Run s tr ((s.opened j).assigning j (.add (turn j))) := by
  have hcounted : ∀ w : Fin n, ((s.opened j).workers w).activeConns = filledCounts j w := h.counted
  obtain ⟨tr, hrun⟩ := run_scan maxclients hcounted j 1 (Nat.zero_add n) hn
  rw [scanned_filled hn hj] at hrun
  have hhead : AssignPc.loopHead n maxclients n (turn j) (1 + j) = .add (turn j) := by
    rw [AssignPc.loopHead, if_neg (lt_irrefl n), if_neg (not_lt.mpr hlimit)]
  rw [hhead] at hrun
  exact ⟨_, (run_accept maxclients h.running h.listener (h.free j le_rfl).1).append hrun⟩

theorem turn_eq_iff {i j : ℕ} : turn i = j ↔ i = turn j :=
  ⟨fun h => by rw [← h, turn_turn], fun h => by rw [h, turn_turn]⟩

theorem filledCounts_succ (i j : ℕ) :
    filledCounts (j + 1) i = filledCounts j i + if i = turn j then 1 else 0 := by
  unfold filledCounts
  simp only [← turn_eq_iff]
  split_ifs <;> omega

theorem Filled.connect {j : ℕ} (h : Filled s₀ j s) (hn : 2 ≤ n) (hj : j < n)
    (hlimit : 1 + (j : ℤ) ≤ maxclients)
    (hlive : ∀ w : Fin n, (w : ℕ) = turn j → (s₀.workers w).Live) :
    ∃ tr t, (serverMachine n maxclients).Run s tr t ∧ Filled s₀ (j + 1) t := by
  obtain ⟨tr, hrun⟩ := h.select hn hj hlimit
  have hlt : turn j < n := turn_lt hn hj
  obtain ⟨w, hw⟩ : ∃ w : Fin n, (w : ℕ) = turn j := ⟨⟨turn j, hlt⟩, rfl⟩
  have hepfd : (s.workers w).epfd ≠ -1 := by
    rw [(h.kept w).2]
    exact (hlive w hw).2
  have hfree := (h.free j le_rfl).2 w
  rw [← hw] at hrun
  have hadd : (serverMachine n maxclients).Run ((s.opened j).assigning j (.add w))
      [.assign (.add true), .assign .increment] ((s.opened j).setWorker w
        ((s.workers w).insert j ⟨s.accepted, addEvents .write .edgeTriggered⟩).increment) := by
    refine .of_exec ?_
    simp [Machine.exec, serverMachine, step, assignStep, assigning, AssignPc.step, assignEffect,
      opened, hepfd, hfree, listenerAfter, w.isLt, Worker.increment, setWorker, h.listener]
  refine ⟨_, _, hrun.append hadd, h.running, h.listener, fun v => ?_, fun v => ?_, fun fd hfd => ?_,
    fun v hv => ?_⟩
  · rw [filledCounts_succ, ← hw]
    by_cases hvw : v = w
    · subst hvw
      simpa [Worker.increment, Worker.insert] using h.counted v
    · simpa [hvw, Fin.val_inj, opened] using h.counted v
  · by_cases hvw : v = w
    · subst hvw
      exact ⟨by simpa [Worker.increment, Worker.insert] using (h.kept v).1,
        by simpa [Worker.increment, Worker.insert] using (h.kept v).2⟩
    · simpa [hvw, opened] using h.kept v
  · have hne : fd ≠ j := by omega
    obtain ⟨hfile, hreg⟩ := h.free fd (by omega)
    refine ⟨by simpa [opened, hne] using hfile, fun v => ?_⟩
    by_cases hvw : v = w
    · subst hvw
      simpa [Worker.increment, Worker.insert, hne] using hreg v
    · simpa [hvw, opened] using hreg v
  · by_cases hvw : v = w
    · subst hvw
      simp [Worker.increment, Worker.insert, hw]
    · have hne : turn v ≠ j := fun heq => hvw (Fin.ext ((turn_eq_iff.mp heq).trans hw.symm))
      simpa [hvw, opened] using h.held v (by omega)

/-- The first `j` workers in the order are not failed, and the limit admits `j` connections. -/
theorem run_fill (hs : s₀.Start) (hn : 2 ≤ n) {j : ℕ} (hj : j ≤ n) (hlimit : (j : ℤ) ≤ maxclients)
    (hlive : ∀ w : Fin n, turn w < j → (s₀.workers w).Live) :
    ∃ tr s, (serverMachine n maxclients).Run s₀ tr s ∧ Filled s₀ j s := by
  induction j with
  | zero => exact ⟨[], s₀, .nil s₀, hs.filled⟩
  | succ j ih =>
    push_cast at hlimit
    obtain ⟨tr, s, hrun, hfilled⟩ := ih (by omega) (by omega) fun w hw => hlive w (by omega)
    obtain ⟨tr', t, hrun', hfilled'⟩ := hfilled.connect hn hj
      (show 1 + (j : ℤ) ≤ maxclients by omega)
      fun w hw => hlive w (by rw [hw, turn_turn]; omega)
    exact ⟨_, t, hrun.append hrun', hfilled'⟩

theorem run_hangUp (maxclients : ℤ) {w : Fin n} {fd : Fd} (hrunning : u.shutdown = false)
    (hpc : (u.workers w).pc = .test) (hepfd : (u.workers w).epfd ≠ -1)
    (hreg : fd ∈ (u.workers w).registered) :
    ∃ tr v, (serverMachine n maxclients).Run u tr v ∧ v.listener = u.listener ∧
      ∀ w', (v.workers w').activeConns =
        (u.workers w').activeConns - if w' = w then 1 else 0 := by
  let ev : Event := ⟨fd, EPOLLERR, ((u.workers w).interest fd).conn⟩
  have hbegin (nRet : ℤ) : beginEvent EPOLLERR nRet = some .iError := rfl
  have htest : (serverMachine n maxclients).step u (.workerTest w) =
      some (u.setWorker w { u.workers w with pc := .wait }) := by
    simp [serverMachine, step, hpc, hrunning]
  have hwait : (serverMachine n maxclients).step
      (u.setWorker w { u.workers w with pc := .wait }) (.wait w [(fd, EPOLLERR)]) =
        some (u.setWorker w { u.workers w with pc := .event ev .iError [] }) := by
    simp [serverMachine, step, waitStep, hepfd, hreg, Worker.report, WorkerPc.dispatch, hbegin, ev]
  have herror : (serverMachine n maxclients).step
      (u.setWorker w { u.workers w with pc := .event ev .iError [] }) (.handle w .error) =
        some (u.setWorker w { u.workers w with pc := .event ev .del [], nRet := -1 }) := by
    simp [serverMachine, step, handleStep, Stage.advance, handleEffect, Worker.resume, afterError]
  have hdel : (serverMachine n maxclients).step
      (u.setWorker w { u.workers w with pc := .event ev .del [], nRet := -1 })
      (.handle w (.del true)) =
        some (u.setWorker w { (u.workers w).remove fd with
          pc := .event ev (.close true) [], nRet := -1 }) := by
    simp [serverMachine, step, handleStep, Stage.advance, handleEffect, Worker.resume, ev, hreg,
      Worker.remove]
  have hclose (v : Server n) (hv : (v.workers w).pc = .event ev (.close true) []) :
      (serverMachine n maxclients).step v (.handle w .close) =
        some ((v.closeFd fd).setWorker w
          { (v.closeFd fd).workers w with pc := .event ev .dec [] }) := by
    simp [serverMachine, step, handleStep, hv, Stage.advance, handleEffect, Worker.resume, ev]
  have hdec (v : Server n) (hv : (v.workers w).pc = .event ev .dec []) :
      (serverMachine n maxclients).step v (.handle w .dec) =
        some (v.setWorker w { (v.workers w).decrement with pc := .test }) := by
    simp [serverMachine, step, handleStep, hv, Stage.advance, handleEffect, Worker.resume, ev,
      Worker.decrement, WorkerPc.dispatch]
  refine ⟨_, _, (Machine.Run.single htest).append <| (Machine.Run.single hwait).append <|
    (Machine.Run.single herror).append <| (Machine.Run.single hdel).append <|
    (Machine.Run.single (hclose _ (by simp))).append <|
    Machine.Run.single (hdec _ (by simp)), by simp, fun w' => ?_⟩
  by_cases hw : w' = w
  · subst hw
    simp [Worker.decrement, Worker.remove]
  · simp [hw]

theorem assigning_self {fd : Fd} {pc : AssignPc} (h : u.listener = .assigning fd pc) :
    u.assigning fd pc = u := by
  rw [assigning, ← h]

/-- Worker 1 loses its only connection after worker 0 was compared with it and before it is
counted. The limit sees no connection, and worker 0 is the target. -/
theorem Filled.select_zero (h : Filled s₀ 1 s) (hn : 2 ≤ n) (hlimit : 1 ≤ maxclients)
    (hpc : ∀ w : Fin n, (w : ℕ) = 1 → (s.workers w).pc = .test ∧ (s.workers w).epfd ≠ -1) :
    ∃ tr t, (serverMachine n maxclients).Run s tr t ∧ t.listener = .assigning 1 (.add 0) := by
  obtain ⟨one, hone⟩ : ∃ w : Fin n, (w : ℕ) = 1 := ⟨⟨1, hn⟩, rfl⟩
  have hcounted : ∀ w : Fin n, ((s.opened 1).workers w).activeConns = filledCounts 1 w := h.counted
  have haccept := run_accept maxclients h.running h.listener (h.free 1 le_rfl).1
  obtain ⟨tr, hround⟩ := run_round maxclients hcounted 1 1 (show 0 < n by omega) hn
  have hpassed : (if filledCounts 1 0 < filledCounts 1 1 then 0 else 1) = 0 ∧
      1 + filledCounts 1 0 = 1 := by decide
  rw [hpassed.1, hpassed.2, Nat.zero_add] at hround
  have hheld : 0 ∈ (s.workers one).registered := by
    simpa [hone, turn] using h.held one (by simp [hone, turn])
  obtain ⟨tr', v, hhang, hl, hcounts⟩ := run_hangUp maxclients (w := one)
    (u := (s.opened 1).assigning 1 (.loopHead n maxclients 1 0 1)) h.running (hpc one hone).1
    (hpc one hone).2 hheld
  have hzero : ∀ w : Fin n, (v.workers w).activeConns = (fun _ => 0) (w : ℕ) := by
    intro w
    rw [hcounts w]
    have hw : ((s.opened 1).workers w).activeConns = if w = one then 1 else 0 := by
      have hiff : turn w < 1 ↔ w = one := by
        rw [Nat.lt_one_iff, turn_eq_iff, Fin.ext_iff, hone]
        rfl
      rw [hcounted w]
      simp only [filledCounts, hiff]
    change ((s.opened 1).workers w).activeConns - _ = 0
    rw [hw, sub_self]
  have hsize : 1 + (n - 1) = n := by omega
  obtain ⟨tr'', hscan⟩ := run_scan maxclients (u := v) (k := fun _ => 0) hzero 1 1 hsize
    (show 0 < n by omega)
  rw [scanned_const (c := 0) (fun _ _ _ => rfl) le_rfl, assigning_self hl] at hscan
  refine ⟨_, _, ((haccept.append hround).append hhang).append hscan, ?_⟩
  simp [assigning, AssignPc.loopHead, hlimit]

theorem exists_selected_failed (hs : s₀.Start) (hn : 2 ≤ n) {w : Fin n}
    (hw : ¬(s₀.workers w).Live) (hreach : ¬OutOfReach maxclients w) :
    ∃ tr s sockfd, ∃ v : Fin n, (serverMachine n maxclients).Run s₀ tr s ∧
      s.listener = .assigning sockfd (.add v) ∧ ¬(s₀.workers v).Live := by
  classical
  have hex : ∃ j, ∃ v : Fin n, turn v = j ∧ ¬(s₀.workers v).Live := ⟨_, w, rfl, hw⟩
  obtain ⟨v, hv, hdead⟩ := Nat.find_spec hex
  have hfirst : ∀ u : Fin n, turn u < turn v → (s₀.workers u).Live := by
    intro u hu
    by_contra hnot
    exact Nat.find_min hex (hv ▸ hu) ⟨u, rfl, hnot⟩
  have hle : turn v ≤ turn w := hv ▸ Nat.find_le ⟨w, rfl, hw⟩
  simp only [OutOfReach, not_or, not_and, not_le] at hreach
  obtain ⟨hpos, hreach⟩ := hreach
  suffices hsel : ∃ tr s sockfd, (serverMachine n maxclients).Run s₀ tr s ∧
      s.listener = .assigning sockfd (.add (v : ℕ)) by
    obtain ⟨tr, s, sockfd, hrun, hl⟩ := hsel
    exact ⟨tr, s, sockfd, v, hrun, hl, hdead⟩
  have hlt : turn v < n := turn_lt hn v.isLt
  by_cases hone : turn v = 1
  · obtain ⟨tr, s, hrun, hfilled⟩ := run_fill (j := 1) hs hn (by omega)
      (show ((1 : ℕ) : ℤ) ≤ maxclients by push_cast; omega) fun u hu => hfirst u (hone ▸ hu)
    have hready : ∀ u : Fin n, (u : ℕ) = 1 →
        (s.workers u).pc = .test ∧ (s.workers u).epfd ≠ -1 := by
      intro u hu
      have hlive := hfirst u (by rw [hone, hu]; decide)
      rw [(hfilled.kept u).1, (hfilled.kept u).2]
      exact ⟨(hs.worker u).2.2.2.resolve_right hlive.1, hlive.2⟩
    obtain ⟨tr', t, hrun', hl⟩ := hfilled.select_zero hn (show 1 ≤ maxclients by omega) hready
    refine ⟨_, t, 1, hrun.append hrun', ?_⟩
    rw [hl, turn_eq_iff.mp hone]
    rfl
  · have hlimit : 1 + (turn v : ℤ) ≤ maxclients := by
      by_cases hzero : turn v = 0
      · rw [hzero]
        push_cast
        omega
      · have hw2 : 2 ≤ (w : ℕ) := by
          have hnot := (turn_lt_iff (i := w) le_rfl).not
          omega
        have hturn : turn w = w := turn_of_two_le hw2
        have hlast := hreach hw2
        omega
    obtain ⟨tr, s, hrun, hfilled⟩ := run_fill (j := turn v) hs hn hlt.le
      (show ((turn v : ℕ) : ℤ) ≤ maxclients by omega) hfirst
    obtain ⟨tr', hrun'⟩ := hfilled.select hn hlt hlimit
    rw [turn_turn] at hrun'
    exact ⟨_, _, turn v, hrun.append hrun', rfl⟩

/-- Exactly the pools whose failed workers are out of reach are safe: in their runs the target
of `AssignTask` always has a thread and an epoll descriptor. -/
theorem live_selected_iff (hs : s₀.Start) (hn : 2 ≤ n) :
    (∀ tr s, (serverMachine n maxclients).Run s₀ tr s → ∀ sockfd, ∀ w : Fin n,
        s.listener = .assigning sockfd (.add w) → (s.workers w).Live) ↔
      ∀ w : Fin n, ¬(s₀.workers w).Live → OutOfReach maxclients w := by
  constructor
  · intro h w hw
    by_contra hreach
    obtain ⟨tr, s, sockfd, v, hrun, hl, hdead⟩ := exists_selected_failed hs hn hw hreach
    exact hdead ((live_of_run hrun v).mp (h tr s hrun sockfd v hl))
  · intro hfail tr s hrun sockfd w hl
    exact live_of_selected hs hrun hfail hl

/-- `epoll_create` failed for one worker. -/
def initialWithout (w : Fin n) : Server n :=
  (initial n).setWorker w { (initial n).workers w with epfd := -1 }

theorem start_initialWithout (w : Fin n) : Start (initialWithout w) where
  running := rfl
  listener := rfl
  worker v := by
    by_cases hv : v = w
    · subst hv
      simp [initialWithout, initial]
    · simp [initialWithout, hv, initial]
  files _ := rfl
  accepted := rfl
  closes _ := rfl

/-- A limit of two connections keeps the third worker of a pool out of reach. -/
theorem live_selected_iff_third :
    OutOfReach 2 2 ∧ ∀ tr s, (serverMachine 3 2).Run (initialWithout 2) tr s →
      ∀ sockfd, ∀ w : Fin 3, s.listener = .assigning sockfd (.add w) → (s.workers w).Live := by
  refine ⟨.inr (by decide), (live_selected_iff (start_initialWithout 2) (by decide)).mpr ?_⟩
  intro w hw
  by_cases htwo : w = 2
  · subst htwo
    exact .inr (by decide)
  · refine absurd ⟨?_, ?_⟩ hw
    · simp [initialWithout, htwo, initial]
    · simp only [initialWithout, setWorker_workers, Function.update_of_ne htwo, initial]
      omega

/-- Of two workers the second has no epoll descriptor, and gets the first connection. -/
theorem not_live_selected :
    ¬∀ s₀ : Server 2, s₀.Start → (∃ w, (s₀.workers w).Live) → ∀ tr s,
      (serverMachine 2 10).Run s₀ tr s → ∀ sockfd, ∀ w : Fin 2,
        s.listener = .assigning sockfd (.add w) → (s.workers w).Live := by
  intro h
  have hlive : ((initialWithout (1 : Fin 2)).workers 0).Live := ⟨by decide, by decide⟩
  have hrun := Machine.Run.of_isSome (M := serverMachine 2 10) (s := initialWithout 1)
    ([.listenerTest, .accept 7] ++ scan) rfl
  exact (h _ (start_initialWithout 1) ⟨0, hlive⟩ _ _ hrun 7 1 rfl).2 rfl

end Server
end EpollThreads.Dispatch
