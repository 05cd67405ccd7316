import EpollThreads.Dispatch.LeastLoaded
import EpollThreads.Dispatch.Delivery
import EpollThreads.Foundations.Balance

/-!
# Load balance over runs

While no connection ends, the counters stand still during a call, so the target
of the selection loop is a worker with the smallest counter, and an increment of
it keeps the counters as close together as they were, or within 1.
-/

namespace EpollThreads.Dispatch

open Foundations Events

variable {n : ℕ} {maxclients : ℤ}

namespace Selection

variable {s t : Selection n}

/-- The target is bounded by the counter of every worker the scan has passed. -/
def Least (s : Selection n) : Prop :=
  s.Sound ∧ ∀ j : Fin n, s.pc.Passed j → s.Bounds (s.counters j)

theorem least_begin (hn : 2 ≤ n) (k : Fin n → ℤ) : Least ⟨k, .begin n maxclients, 1⟩ := by
  have h₀ : (selectionMachine n maxclients).start ⟨k, .begin n maxclients, 1⟩ := ⟨rfl, rfl⟩
  refine ⟨sound_start hn h₀, fun j hj => ?_⟩
  rw [AssignPc.begin, AssignPc.loopHead, if_pos (by omega)] at hj
  exact absurd hj (Nat.not_lt_zero _)

theorem Least.step (h : s.Least) {a : SelectionAct n} (ha : ∀ w, a ≠ .decrement w)
    (hs : s.step maxclients a = some t) : t.Least := by
  rcases step_cases hs with ⟨w, he, -⟩ | ⟨r, w, pc, -, hw, hr, rfl⟩
  · exact (ha w he).elim
  · obtain ⟨hsound, hbounds⟩ := h
    obtain ⟨hsound', hkeep, hnew, hpassed⟩ := Sound.read hsound hw hr
    refine ⟨hsound', fun j hj => ?_⟩
    rcases hpassed j hj with hbefore | ⟨hcmp, rfl⟩
    · exact hkeep _ (hbounds j hbefore)
    · exact hnew hcmp

theorem Least.run (h : s.Least) {acts : List (SelectionAct n)}
    (hrun : (selectionMachine n maxclients).Run s acts t) (hno : ∀ w, .decrement w ∉ acts) :
    t.Least :=
  hrun.invariant (P := fun a => ∀ w, a ≠ .decrement w) (fun ha hs hstep => hs.step ha hstep) h
    fun _ ha w he => hno w (he ▸ ha)

/-- Where the loop ends, the target has the smallest counter. -/
theorem Least.minimal {k : Fin n → ℤ} {w : Fin n} {target : ℕ} (h : Least ⟨k, .add w, target⟩)
    (j : Fin n) : k w ≤ k j := by
  have hw : (w : ℕ) = target := h.1.2
  exact (h.2 j trivial).ended trivial w hw

end Selection

namespace Server

variable {s t : Server n}

/-- The call in progress goes for a worker with the smallest counter. -/
def CallLeast (s : Server n) : Prop :=
  ∀ sockfd pc, s.listener = .assigning sockfd pc →
    (pc.Choosing → ∃ target, Selection.Least ⟨s.counts, pc, target⟩) ∧
      ∀ w : Fin n, pc = .increment w → ∀ j, s.counts w ≤ s.counts j

theorem CallLeast.step (hn : 2 ≤ n) (h : CallLeast s) {a : Action n}
    (ht : Transition maxclients s a t) (hdec : ∀ w, a ≠ .handle w .dec) : CallLeast t := by
  intro sockfd pc' hl
  by_cases ha : ∃ fd, a = .accept fd
  · obtain ⟨fd, rfl⟩ := ha
    cases ht
    obtain ⟨rfl, rfl⟩ := ListenerPc.assigning.inj hl
    refine ⟨fun _ => ⟨1, Selection.least_begin hn _⟩, fun w hw => ?_⟩
    have hc : (AssignPc.begin n maxclients).Choosing := AssignPc.choosing_loopHead
    rw [hw] at hc
    exact hc.elim
  · constructor
    · intro hc
      obtain ⟨pc, hs, hc', hsel⟩ := call_selection ht (not_exists.mp ha) hl hc
      obtain ⟨target, hleast⟩ := (h sockfd pc hs).1 hc'
      obtain ⟨acts, target', hrun, hacts⟩ := hsel target
      exact ⟨target', hleast.run hrun fun w hw => hdec w (hacts w hw)⟩
    · rintro w rfl
      have hinc : a ≠ .assign .increment := by
        rintro rfl
        cases ht
        simp at hl
      obtain ⟨pc, hs, -, hpc⟩ := call_step ht (not_exists.mp ha) hl
      rw [counts_eq ht hdec hinc]
      rcases hpc with rfl | ⟨target, rfl, he⟩ | ⟨r, w', -, hr⟩
      · exact (h sockfd _ hs).2 w rfl
      · obtain ⟨target', hleast⟩ := (h sockfd _ hs).1 trivial
        obtain rfl := AssignPc.increment.inj he
        exact hleast.minimal
      · exact (AssignPc.choosing_afterRead hr).2.elim

theorem spread_step [NeZero n] (h : CallLeast s) {a : Action n}
    (ht : Transition maxclients s a t) (hdec : ∀ w, a ≠ .handle w .dec) :
    spread t.counts ≤ max 1 (spread s.counts) := by
  rcases counts_cases ht with hk | ⟨w, ha, -⟩ | ⟨sockfd, w, -, hs, -, hk⟩
  · rw [hk]
    exact le_max_right _ _
  · exact (hdec w ha).elim
  · rw [hk]
    exact spread_update_le one_pos.le ((h sockfd _ hs).2 w rfl)

/-- Load balance: over any calls without a connection ending, the spread of the counters
stays within what it was or 1. -/
theorem load_balance [NeZero n] (hn : 2 ≤ n) (hs : s.Between) {tr : List (Action n)}
    (h : (serverMachine n maxclients).Run s tr t) (hno : ∀ w, .handle w .dec ∉ tr) :
    spread t.counts ≤ max 1 (spread s.counts) ∧
      ((∀ w, s.counts w = 0) → ∀ i j, t.counts i - t.counts j ≤ 1) := by
  have hrun : CallLeast t ∧ spread t.counts ≤ max 1 (spread s.counts) := by
    refine h.invariant (I := fun u => CallLeast u ∧ spread u.counts ≤ max 1 (spread s.counts))
      (P := fun a => ∀ w, a ≠ .handle w .dec) ?_ ?_ fun a ha w he => hno w (he ▸ ha)
    · rintro u a v hdec ⟨hleast, hspread⟩ hstep
      have ht := step_cases hstep
      refine ⟨hleast.step hn ht hdec, (spread_step hleast ht hdec).trans ?_⟩
      exact max_le (le_max_left _ _) hspread
    · exact ⟨fun sockfd pc hl => (hs sockfd pc hl).elim, le_max_right _ _⟩
  refine ⟨hrun.2, fun hzero i j => ?_⟩
  have hconst : s.counts = fun _ => 0 := funext hzero
  have hle := hrun.2
  rw [hconst, spread_const] at hle
  exact (sub_le_spread t.counts i j).trans (hle.trans (by simp))

theorem load_balance_connect :
    ∃ t : Server 2, (serverMachine 2 10).Run (initial 2) (connect 7) t ∧
      spread t.counts ≤ max 1 (spread (initial 2).counts) ∧ ∀ i j, t.counts i - t.counts j ≤ 1 := by
  have h := Machine.Run.of_isSome (M := serverMachine 2 10) (s := initial 2) (connect 7) (by decide)
  have hb : (initial 2).Between := fun _ _ hl => by simp [initial] at hl
  obtain ⟨hspread, hzero⟩ := load_balance le_rfl hb h (by decide)
  exact ⟨_, h, hspread, hzero fun w => rfl⟩

end Server
end EpollThreads.Dispatch
