import EpollThreads.Dispatch.Accounting
import Mathlib.Algebra.BigOperators.Fin
import Mathlib.Algebra.Order.BigOperators.Group.Finset

/-!
# The client limit

`AssignTask` adds up the counters one read at a time while workers decrement
them. What it has read so far is at least the present sum of those counters and
at most their sum when the call began. The first bound keeps the registered
connections within `maxclients`, the second justifies every refusal.
-/

namespace EpollThreads.Dispatch

open Foundations Events

variable {n : ℕ} {maxclients : ℤ}

/-- The counters that the first `i` rounds of the loop look at. -/
def sumBelow (k : Fin n → ℤ) (i : ℕ) : ℤ := ∑ w with w.val < i, k w

theorem sumBelow_zero (k : Fin n → ℤ) : sumBelow k 0 = 0 := by simp [sumBelow]

theorem sumBelow_succ (k : Fin n → ℤ) (w : Fin n) :
    sumBelow k (w + 1) = sumBelow k w + k w := by
  have hf : ({v | v.val < w + 1} : Finset (Fin n)) =
      insert w ({v | v.val < w} : Finset (Fin n)) := by
    ext v
    simp only [Finset.mem_filter, Finset.mem_univ, true_and, Finset.mem_insert, Fin.ext_iff]
    omega
  rw [sumBelow, hf, Finset.sum_insert (by simp), add_comm]
  rfl

theorem sumBelow_of_le (k : Fin n → ℤ) {i : ℕ} (h : n ≤ i) : sumBelow k i = ∑ w, k w := by
  rw [sumBelow, Finset.filter_true_of_mem fun w _ => w.isLt.trans_le h]

theorem sumBelow_mono {k k' : Fin n → ℤ} (h : ∀ w, k w ≤ k' w) (i : ℕ) :
    sumBelow k i ≤ sumBelow k' i :=
  Finset.sum_le_sum fun w _ => h w

namespace AssignPc

/-- What was read covers the counters `k` of the workers passed so far. -/
def Covers (maxclients : ℤ) (k : Fin n → ℤ) : AssignPc → Prop
  | .count i _ activeConns => 1 + sumBelow k i ≤ activeConns
  | .compare i _ activeConns _ _ => 1 + sumBelow k (i + 1) ≤ activeConns
  | .add _ => 1 + ∑ w, k w ≤ maxclients
  | _ => True

/-- What was read is within the counters `k` of the workers passed so far. -/
def Within (maxclients : ℤ) (k : Fin n → ℤ) : AssignPc → Prop
  | .count i _ activeConns => activeConns ≤ 1 + sumBelow k i
  | .compare i _ activeConns _ _ => activeConns ≤ 1 + sumBelow k (i + 1)
  | .close => maxclients ≤ ∑ w, k w
  | _ => True

variable {k k' : Fin n → ℤ}

theorem Covers.mono {pc : AssignPc} (h : pc.Covers maxclients k) (hk : ∀ w, k' w ≤ k w) :
    pc.Covers maxclients k' := by
  have hb := sumBelow_mono hk
  have hs : ∑ w, k' w ≤ ∑ w, k w := Finset.sum_le_sum fun w _ => hk w
  cases pc with
  | count i target activeConns => exact (add_le_add_right (hb i) 1).trans h
  | compare i target activeConns left right => exact (add_le_add_right (hb (i + 1)) 1).trans h
  | add target => exact (add_le_add_right hs 1).trans h
  | _ => trivial

theorem covers_loopHead {i target : ℕ} {activeConns : ℤ} (h : 1 + sumBelow k i ≤ activeConns) :
    (loopHead n maxclients i target activeConns).Covers maxclients k := by
  unfold loopHead
  split_ifs with hi hm
  · exact h
  · trivial
  · rw [sumBelow_of_le k (not_lt.mp hi)] at h
    exact h.trans (not_lt.mp hm)

theorem within_loopHead {i target : ℕ} {activeConns : ℤ} (h : activeConns ≤ 1 + sumBelow k i) :
    (loopHead n maxclients i target activeConns).Within maxclients k := by
  unfold loopHead
  split_ifs with hi hm
  · exact h
  · rw [sumBelow_of_le k (not_lt.mp hi)] at h
    have hlt := hm.trans_le h
    exact Int.lt_add_one_iff.mp (by rwa [add_comm] at hlt)
  · trivial

theorem covers_begin : (begin n maxclients).Covers maxclients k :=
  covers_loopHead (by rw [sumBelow_zero]; decide)

theorem within_begin : (begin n maxclients).Within maxclients k :=
  within_loopHead (by rw [sumBelow_zero]; decide)

/-- The read of `count` adds the counter itself; the others add nothing. -/
theorem Covers.afterRead {pc pc' : AssignPc} {r : CounterRead} {w : Fin n}
    (h : pc.Covers maxclients k) (hw : pc.reads r = some (w : ℕ))
    (hr : pc.afterRead n maxclients r (k w) = some pc') : pc'.Covers maxclients k := by
  cases afterRead_cases hr with
  | count =>
    simp only [reads, Option.some.injEq] at hw
    subst hw
    have hs := sumBelow_succ k w
    simp only [Covers] at h ⊢
    omega
  | leftFirst | rightFirst => exact h
  | leftLast | rightLast => exact covers_loopHead h

theorem Within.afterRead {pc pc' : AssignPc} {r : CounterRead} {w : Fin n} {v : ℤ}
    (h : pc.Within maxclients k) (hw : pc.reads r = some (w : ℕ)) (hv : v ≤ k w)
    (hr : pc.afterRead n maxclients r v = some pc') : pc'.Within maxclients k := by
  cases afterRead_cases hr with
  | count =>
    simp only [reads, Option.some.injEq] at hw
    subst hw
    have hs := sumBelow_succ k w
    simp only [Within] at h ⊢
    omega
  | leftFirst | rightFirst => exact h
  | leftLast | rightLast => exact within_loopHead h

end AssignPc

namespace Server

variable {s t : Server n}

def counts (s : Server n) (w : Fin n) : ℤ := (s.workers w).activeConns

/-- The connections registered over all interest lists. -/
def registeredTotal (s : Server n) : ℤ := ∑ w, ((s.workers w).registered.card : ℤ)

theorem registered_closeFd (fd : Fd) (w : Fin n) :
    ((s.closeFd fd).workers w).registered ⊆ (s.workers w).registered := by
  unfold closeFd
  split
  · exact subset_rfl
  · exact Finset.erase_subset _ _

/-- The counters move at a decrement of `iClose` and at the increment that ends a call. -/
theorem counts_cases {a : Action n} (ht : Transition maxclients s a t) :
    t.counts = s.counts ∨
    (∃ w, a = .handle w .dec ∧ t.counts = Function.update s.counts w (s.counts w - 1)) ∨
    ∃ sockfd, ∃ w : Fin n, a = .assign .increment ∧
      s.listener = .assigning sockfd (.increment w) ∧ t.listener = .test ∧
      t.counts = Function.update s.counts w (s.counts w + 1) := by
  have hset : ∀ (w : Fin n) (x : Worker),
      (s.setWorker w x).counts = Function.update s.counts w x.activeConns := by
    intro w x
    funext w'
    by_cases hw : w' = w
    · subst hw; simp [counts]
    · simp [counts, hw]
  have hkeep : ∀ (w : Fin n) (x : Worker), x.activeConns = (s.workers w).activeConns →
      (s.setWorker w x).counts = s.counts := by
    intro w x hx
    rw [hset, hx]
    exact Function.update_eq_self w s.counts
  cases ht with
  | shutdown | listenerTest | listenFails | accept | read | addFail => exact Or.inl rfl
  | refuse => exact Or.inl (funext fun w => closeFd_activeConns _ w)
  | @increment sockfd w hl => exact Or.inr (Or.inr ⟨sockfd, w, rfl, hl, rfl, hset w _⟩)
  | @addOk _ w => exact Or.inl (hkeep w _ rfl)
  | @workerTest w | @wait w | @quiet w | @modOk w | @delOk w | @delFail w =>
    exact Or.inl (hkeep w _ rfl)
  | @close w =>
    left
    funext w'
    by_cases hw : w' = w
    · subst hw; simp [counts]
    · simp [counts, hw]
  | @dec w => exact Or.inr (Or.inl ⟨w, rfl, hset w _⟩)

theorem counts_eq {a : Action n} (ht : Transition maxclients s a t)
    (hdec : ∀ w, a ≠ .handle w .dec) (hinc : a ≠ .assign .increment) : t.counts = s.counts := by
  rcases counts_cases ht with hc | ⟨w, ha, -⟩ | ⟨_, _, ha, -⟩
  · exact hc
  · exact (hdec w ha).elim
  · exact (hinc ha).elim

theorem counts_step {a : Action n} (ht : Transition maxclients s a t)
    (ha : a ≠ .assign .increment) (w : Fin n) : t.counts w ≤ s.counts w := by
  rcases counts_cases ht with hc | ⟨w', -, hc⟩ | ⟨_, _, rfl, -⟩
  · rw [hc]
  · rw [hc]
    by_cases hw : w = w'
    · subst hw; simp
    · simp [hw]
  · exact (ha rfl).elim

theorem registered_step {a : Action n} (ht : Transition maxclients s a t)
    (ha : a ≠ .assign (.add true)) (w : Fin n) :
    (t.workers w).registered ⊆ (s.workers w).registered := by
  have hset : ∀ {w' : Fin n} {x : Worker}, x.registered ⊆ (s.workers w').registered →
      ((s.setWorker w' x).workers w).registered ⊆ (s.workers w).registered := by
    intro w' x hx
    by_cases hw : w = w'
    · subst hw; simpa using hx
    · simp [hw]
  cases ht with
  | shutdown | listenerTest | listenFails | accept | read | addFail => exact subset_rfl
  | @refuse sockfd hl => exact registered_closeFd sockfd w
  | addOk => exact (ha rfl).elim
  | increment | workerTest | wait | quiet | modOk | delFail | dec => exact hset subset_rfl
  | delOk => exact hset (Finset.erase_subset _ _)
  | @close w' ev deleted rest hpc =>
    by_cases hw : w = w'
    · subst hw; simpa using registered_closeFd ev.fd w
    · simpa [hw] using registered_closeFd ev.fd w

/-- A call in progress after a step was in progress before it, unless it has just begun. -/
theorem call_step {a : Action n} (ht : Transition maxclients s a t)
    (ha : ∀ fd, a ≠ .accept fd) {sockfd : Fd} {pc' : AssignPc}
    (hl : t.listener = .assigning sockfd pc') :
    ∃ pc, s.listener = .assigning sockfd pc ∧ (∀ w, t.counts w ≤ s.counts w) ∧
      (pc' = pc ∨ (∃ target, pc = .add target ∧ pc' = .increment target) ∨
        ∃ r, ∃ w : Fin n, pc.reads r = some (w : ℕ) ∧
          pc.afterRead n maxclients r (s.counts w) = some pc') := by
  have hle := counts_step ht
  cases ht with
  | shutdown => exact ⟨pc', hl, hle (by simp), Or.inl rfl⟩
  | listenerTest => simp only at hl; split at hl <;> simp at hl
  | listenFails | refuse | addFail | increment => simp at hl
  | accept => exact (ha _ rfl).elim
  | @read fd pc pc'' r w hs hw hpc =>
    obtain ⟨rfl, rfl⟩ := ListenerPc.assigning.inj hl
    exact ⟨pc, hs, hle (by simp), Or.inr (Or.inr ⟨r, w, hw, hpc⟩)⟩
  | @addOk fd w c hs =>
    obtain ⟨rfl, rfl⟩ := ListenerPc.assigning.inj hl
    exact ⟨_, hs, hle (by simp), Or.inr (Or.inl ⟨w, rfl, rfl⟩)⟩
  | close => exact ⟨pc', by simpa using hl, hle (by simp), Or.inl rfl⟩
  | workerTest | wait | quiet | modOk | delOk | delFail | dec =>
    exact ⟨pc', hl, hle (by simp), Or.inl rfl⟩

/-- The call in progress covers the present counters. -/
def CallCovers (maxclients : ℤ) (s : Server n) : Prop :=
  ∀ sockfd pc, s.listener = .assigning sockfd pc → pc.Covers maxclients s.counts

/-- The counters have not grown beyond `k`, and the call in progress stays within them. -/
def CallWithin (maxclients : ℤ) (k : Fin n → ℤ) (s : Server n) : Prop :=
  ∀ sockfd pc, s.listener = .assigning sockfd pc →
    (∀ w, s.counts w ≤ k w) ∧ pc.Within maxclients k

theorem CallCovers.step (h : CallCovers maxclients s) {a : Action n}
    (ht : Transition maxclients s a t) : CallCovers maxclients t := by
  intro sockfd pc' hl
  by_cases ha : ∃ fd, a = .accept fd
  · obtain ⟨fd, rfl⟩ := ha
    cases ht
    obtain ⟨rfl, rfl⟩ := ListenerPc.assigning.inj hl
    exact AssignPc.covers_begin
  · obtain ⟨pc, hs, hle, hpc⟩ := call_step ht (not_exists.mp ha) hl
    have hcov := h sockfd pc hs
    rcases hpc with rfl | ⟨target, -, rfl⟩ | ⟨r, w, hw, hr⟩
    · exact hcov.mono hle
    · trivial
    · exact (hcov.afterRead hw hr).mono hle

theorem CallCovers.of_reaches {tr : List (Action n)}
    (h : (serverMachine n maxclients).Reaches tr s) : CallCovers maxclients s :=
  h.invariant (fun hs sockfd pc hl => by simp [hs.listener] at hl)
    fun hs hstep => hs.step (step_cases hstep)

theorem CallWithin.step {k : Fin n → ℤ} (h : CallWithin maxclients k s) {a : Action n}
    (ha : ∀ fd, a ≠ .accept fd) (ht : Transition maxclients s a t) :
    CallWithin maxclients k t := by
  intro sockfd pc' hl
  obtain ⟨pc, hs, hle, hpc⟩ := call_step ht ha hl
  obtain ⟨hk, hin⟩ := h sockfd pc hs
  refine ⟨fun w => (hle w).trans (hk w), ?_⟩
  rcases hpc with rfl | ⟨target, -, rfl⟩ | ⟨r, w, hw, hr⟩
  · exact hin
  · trivial
  · exact hin.afterRead hw (hk w) hr

theorem CallWithin.of_accept {fd : Fd} (ht : Transition maxclients s (.accept fd) t) :
    CallWithin maxclients t.counts t := by
  cases ht
  intro sockfd pc hl
  obtain ⟨rfl, rfl⟩ := ListenerPc.assigning.inj hl
  exact ⟨fun _ => le_rfl, AssignPc.within_begin⟩

/-- Outside a pending increment no interest list is longer than its counter says. -/
theorem registeredTotal_le {tr : List (Action n)}
    (h : (serverMachine n maxclients).Reaches tr s) (hl : s.listener.adding = none) :
    s.registeredTotal ≤ ∑ w, s.counts w := by
  apply Finset.sum_le_sum
  intro w _
  have hb := Balanced.of_reaches h w
  have hp : s.pendingIncrement w = 0 := by simp [pendingIncrement, hl]
  have hd : 0 ≤ (s.workers w).pendingDecrement := by
    unfold Worker.pendingDecrement
    split <;> decide
  unfold Worker.excess at hb
  unfold counts
  omega

theorem registeredTotal_step {tr : List (Action n)}
    (h : (serverMachine n maxclients).Reaches tr s) (hs : s.registeredTotal ≤ maxclients)
    {a : Action n} (ht : Transition maxclients s a t) : t.registeredTotal ≤ maxclients := by
  by_cases ha : a = .assign (.add true)
  · subst ha
    have hcov := CallCovers.of_reaches h
    cases ht with
    | @addOk sockfd w c hl hc he hr =>
      have hroom : 1 + ∑ w, s.counts w ≤ maxclients := hcov sockfd _ hl
      have hreg := registeredTotal_le h (by rw [hl]; rfl)
      have hcard : ∀ w', ((((s.setWorker w ((s.workers w).insert sockfd
          ⟨c, addEvents .write .edgeTriggered⟩)).workers w').registered.card : ℕ) : ℤ) =
          (s.workers w').registered.card + if w' = w then 1 else 0 := by
        intro w'
        by_cases hw : w' = w
        · subst hw
          simp [Worker.insert, Finset.card_insert_of_notMem hr]
        · simp [hw]
      have hsum : registeredTotal { s.setWorker w ((s.workers w).insert sockfd
          ⟨c, addEvents .write .edgeTriggered⟩) with
          listener := .assigning sockfd (.increment w) } = s.registeredTotal + 1 := by
        simp only [registeredTotal, hcard, Finset.sum_add_distrib, Finset.sum_ite_eq',
          Finset.mem_univ, if_true]
      omega
  · refine le_trans (Finset.sum_le_sum fun w _ => ?_) hs
    exact_mod_cast Finset.card_le_card (registered_step ht ha w)

theorem registeredTotal_le_maxclients (hm : 0 ≤ maxclients) {tr : List (Action n)}
    (h : (serverMachine n maxclients).Reaches tr s) : s.registeredTotal ≤ maxclients := by
  refine h.history (Q := fun _ s => s.registeredTotal ≤ maxclients) (fun hs => ?_)
    fun hr hs hstep => registeredTotal_step hr hs (step_cases hstep)
  simpa [registeredTotal, fun w => (hs.worker w).2.1] using hm

/-- The client limit, and that no socket is refused below it. -/
theorem client_limit (hm : 1 ≤ maxclients) :
    (∀ {tr : List (Action n)} {s : Server n}, (serverMachine n maxclients).Reaches tr s →
      s.registeredTotal ≤ maxclients) ∧
    ∀ {tr call : List (Action n)} {s s' t u : Server n} {fd : Fd},
      (serverMachine n maxclients).Reaches tr s → s.step maxclients (.accept fd) = some s' →
      (serverMachine n maxclients).Run s' call t → (∀ fd', .accept fd' ∉ call) →
      t.step maxclients (.assign .close) = some u → maxclients ≤ ∑ w, s'.counts w := by
  refine ⟨fun h => registeredTotal_le_maxclients (by omega) h, ?_⟩
  intro tr call s s' t u fd _ haccept hcall hno hclose
  have hin : CallWithin maxclients s'.counts t :=
    hcall.invariant (P := fun a => ∀ fd', a ≠ .accept fd')
      (fun ha hk hstep => hk.step ha (step_cases hstep)) (.of_accept (step_cases haccept))
      fun a ha fd' he => hno fd' (he ▸ ha)
  cases step_cases hclose with
  | refuse hl => exact (hin _ _ hl).2

/-- With a limit of one, the second of two clients is refused. -/
theorem client_limit_second :
    ∃ s s' t u : Server 2, (serverMachine 2 1).Reaches (connect 7 ++ [.listenerTest]) s ∧
      s.step 1 (.accept 8) = some s' ∧ (serverMachine 2 1).Run s' scan t ∧
      t.step 1 (.assign .close) = some u ∧ s.registeredTotal ≤ 1 ∧ 1 ≤ ∑ w, s'.counts w := by
  have hrun : ((serverMachine 2 1).exec (initial 2) ((connect 7 ++ [.listenerTest]) ++
    .accept 8 :: (scan ++ [.assign .close]))).isSome := by decide
  obtain ⟨s, hs, hrun⟩ := Machine.exec_append hrun
  obtain ⟨s', haccept, hrun⟩ := Machine.exec_cons hrun
  obtain ⟨t, hcall, hrun⟩ := Machine.exec_append hrun
  obtain ⟨u, hclose, -⟩ := Machine.exec_cons hrun
  have hs : (serverMachine 2 1).Reaches (connect 7 ++ [.listenerTest]) s :=
    ⟨_, start_initial, hs⟩
  exact ⟨s, s', t, u, hs, haccept, hcall, hclose, (client_limit le_rfl).1 hs,
    (client_limit le_rfl).2 hs haccept hcall (by simp [scan]) hclose⟩

end Server
end EpollThreads.Dispatch
