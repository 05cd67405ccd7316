import EpollThreads.Dispatch.ClientLimit

/-!
# The selection loop among changing counters

`AssignTask` reads three counters in each round while any worker may decrement
any counter between two reads. An operand it has read is at least the counter it
came from, and this is enough: whatever the scan has compared, the counter of
the target is not above it.
-/

namespace EpollThreads.Dispatch

open Foundations Events

variable {n : ℕ} {maxclients : ℤ}

namespace AssignPc

/-- The round whose comparison is under way. -/
def comparing : AssignPc → Option ℕ
  | .compare i _ _ _ _ => some i
  | _ => none

/-- The selection loop has ended and nothing is done yet. -/
def LoopEnded : AssignPc → Prop
  | .close | .add _ => True
  | _ => False

/-- The variable `target` after a read of `v`. -/
def chosen : AssignPc → CounterRead → ℤ → ℕ → ℕ
  | .compare i _ _ none (some right), .left, v, target => if v < right then i else target
  | .compare i _ _ (some left) none, .right, v, target => if left < v then i else target
  | _, _, _, target => target

/-- Rounds whose operand `m_taskthread[j]` has been read. -/
def Passed (j : ℕ) : AssignPc → Prop
  | .count i _ _ => j < i
  | .compare i _ _ left _ => j < i ∨ j = i ∧ left ≠ none
  | _ => True

end AssignPc

/-- The selection loop on its own: the counters, the position, and the variable `target`,
which is still there when the position no longer needs it. -/
structure Selection (n : ℕ) where
  counters : Fin n → ℤ
  pc : AssignPc
  target : ℕ

inductive SelectionAct (n : ℕ)
  | read (r : CounterRead)
  | decrement (w : Fin n)
  deriving DecidableEq, Repr

namespace Selection

def counter (s : Selection n) (i : ℕ) : Option ℤ :=
  if h : i < n then some (s.counters ⟨i, h⟩) else none

/-- A read by the listener, or a decrement by some worker. -/
def step (maxclients : ℤ) (s : Selection n) : SelectionAct n → Option (Selection n)
  | .read r =>
      (s.pc.reads r).bind fun i => (s.counter i).bind fun v =>
        (s.pc.afterRead n maxclients r v).map fun pc =>
          { s with pc := pc, target := s.pc.chosen r v s.target }
  | .decrement w =>
      some { s with counters := Function.update s.counters w (s.counters w - 1) }

end Selection

/-- Any counters, and the loop at its beginning. -/
def selectionMachine (n : ℕ) (maxclients : ℤ) : Machine (Selection n) (SelectionAct n) where
  start s := s.pc = .begin n maxclients ∧ s.target = 1
  step := Selection.step maxclients

/-- The counter of worker `i` is not above `v`. -/
def AtMost (k : Fin n → ℤ) (i : ℕ) (v : ℤ) : Prop := ∀ w : Fin n, (w : ℕ) = i → k w ≤ v

theorem AtMost.mono {k k' : Fin n → ℤ} {i : ℕ} {v : ℤ} (h : AtMost k i v) (hk : ∀ w, k' w ≤ k w) :
    AtMost k' i v :=
  fun w hw => (hk w).trans (h w hw)

theorem AtMost.le_trans {k : Fin n → ℤ} {i : ℕ} {v v' : ℤ} (h : AtMost k i v) (hv : v ≤ v') :
    AtMost k i v' :=
  fun w hw => (h w hw).trans hv

theorem atMost_self (k : Fin n → ℤ) (w : Fin n) : AtMost k w (k w) := by
  intro w' hw
  rw [Fin.ext hw]

/-- Two operands that are not below their counters: the worker with the smaller one has a
counter that is below neither. -/
theorem AtMost.select {k : Fin n → ℤ} {i target : ℕ} {left right : ℤ} (hl : AtMost k i left)
    (hr : AtMost k target right) :
    AtMost k (if left < right then i else target) left ∧
      AtMost k (if left < right then i else target) right := by
  split_ifs with h
  · exact ⟨hl, hl.le_trans h.le⟩
  · exact ⟨hr.le_trans (not_lt.mp h), hr⟩

namespace Selection

variable {s t : Selection n}

theorem step_cases {a : SelectionAct n} (h : s.step maxclients a = some t) :
    (∃ w, a = .decrement w ∧
      t = { s with counters := Function.update s.counters w (s.counters w - 1) }) ∨
    ∃ r, ∃ w : Fin n, ∃ pc, a = .read r ∧ s.pc.reads r = some (w : ℕ) ∧
      s.pc.afterRead n maxclients r (s.counters w) = some pc ∧
      t = { s with pc := pc, target := s.pc.chosen r (s.counters w) s.target } := by
  cases a with
  | decrement w => exact Or.inl ⟨w, rfl, (Option.some.inj h).symm⟩
  | read r =>
    obtain ⟨i, hi, h⟩ := Option.bind_eq_some_iff.mp h
    obtain ⟨v, hv, h⟩ := Option.bind_eq_some_iff.mp h
    obtain ⟨pc, hpc, rfl⟩ := Option.map_eq_some_iff.mp h
    simp only [counter, Option.dite_none_right_eq_some, Option.some.injEq] at hv
    obtain ⟨hlt, rfl⟩ := hv
    exact Or.inr ⟨r, ⟨i, hlt⟩, pc, rfl, hi, hpc, rfl⟩

/-- The variables agree with the position, and no operand is below its counter now. -/
def Sound (s : Selection n) : Prop :=
  s.target < n ∧ match s.pc with
    | .count i target _ => i < n ∧ target = s.target
    | .compare i target _ left right => i < n ∧ target = s.target ∧
        (∀ l ∈ left, AtMost s.counters i l) ∧ ∀ r ∈ right, AtMost s.counters s.target r
    | .add target => target = s.target
    | .close => True
    | _ => False

/-- The comparisons so far put the target at or below `v`, or the next one will. -/
def Bounds (v : ℤ) (s : Selection n) : Prop :=
  match s.pc with
  | .compare _ _ _ left right => (AtMost s.counters s.target v ∧ ∀ r ∈ right, r ≤ v) ∨ left = some v
  | _ => AtMost s.counters s.target v

theorem sound_loopHead {k : Fin n → ℤ} {i target : ℕ} {activeConns : ℤ} (h : target < n) :
    Sound ⟨k, .loopHead n maxclients i target activeConns, target⟩ := by
  unfold AssignPc.loopHead
  split_ifs with hi hm
  · exact ⟨h, hi, rfl⟩
  · exact ⟨h, trivial⟩
  · exact ⟨h, rfl⟩

theorem bounds_loopHead {k : Fin n → ℤ} {i target : ℕ} {activeConns v : ℤ}
    (h : AtMost k target v) :
    Bounds v ⟨k, .loopHead n maxclients i target activeConns, target⟩ := by
  unfold AssignPc.loopHead
  split_ifs <;> exact h

theorem sound_start (hn : 2 ≤ n) (h : (selectionMachine n maxclients).start s) : s.Sound := by
  obtain ⟨k, pc, target⟩ := s
  obtain ⟨rfl, rfl⟩ := h
  exact sound_loopHead hn

theorem Sound.decrement (h : s.Sound) {k : Fin n → ℤ} (hk : ∀ w, k w ≤ s.counters w) :
    Sound { s with counters := k } := by
  obtain ⟨k₀, pc, target⟩ := s
  obtain ⟨hlt, hpc⟩ := h
  refine ⟨hlt, ?_⟩
  cases pc with
  | compare i target' activeConns left right =>
    obtain ⟨hi, ht, hl, hr⟩ := hpc
    exact ⟨hi, ht, fun l hmem => (hl l hmem).mono hk, fun r hmem => (hr r hmem).mono hk⟩
  | _ => exact hpc

theorem Bounds.decrement {v : ℤ} (h : s.Bounds v) {k : Fin n → ℤ} (hk : ∀ w, k w ≤ s.counters w) :
    Bounds v { s with counters := k } := by
  obtain ⟨k₀, pc, target⟩ := s
  cases pc with
  | compare i target' activeConns left right =>
    exact h.imp_left fun ⟨ht, hr⟩ => ⟨AtMost.mono ht hk, hr⟩
  | _ => exact AtMost.mono h hk

theorem passed_loopHead {i target : ℕ} {activeConns : ℤ} {j : Fin n}
    (h : (AssignPc.loopHead n maxclients (i + 1) target activeConns).Passed j) :
    (j : ℕ) < i ∨ (j : ℕ) = i := by
  unfold AssignPc.loopHead at h
  have hj := j.isLt
  split_ifs at h with hi hm
  · exact Nat.lt_succ_iff_lt_or_eq.mp h
  · omega
  · omega

/-- The round is complete: the target for the next one. -/
theorem Sound.compared (maxclients : ℤ) {k : Fin n → ℤ} {i target : ℕ} {activeConns left right : ℤ}
    (hi : i < n) (ht : target < n) (hl : AtMost k i left) (hr : AtMost k target right) :
    let pc := AssignPc.compared n maxclients i target activeConns left right
    let target' := if left < right then i else target
    Sound ⟨k, pc, target'⟩ ∧ Bounds left ⟨k, pc, target'⟩ ∧
      ∀ v, (AtMost k target v ∧ right ≤ v) → Bounds v ⟨k, pc, target'⟩ := by
  have hsel := hl.select hr
  refine ⟨sound_loopHead (by split_ifs <;> assumption), bounds_loopHead hsel.1, ?_⟩
  rintro v ⟨htarget, hright⟩
  exact bounds_loopHead (hsel.2.le_trans hright)

/-- What a read does: it keeps the invariant and the bounds, adds the value it saw as a bound
when it is the round's own worker, and is the only way to get past a worker. -/
theorem Sound.read {k : Fin n → ℤ} {pc pc' : AssignPc} {target : ℕ} (h : Sound ⟨k, pc, target⟩)
    {r : CounterRead} {w : Fin n} (hw : pc.reads r = some (w : ℕ))
    (hr : pc.afterRead n maxclients r (k w) = some pc') :
    Sound ⟨k, pc', pc.chosen r (k w) target⟩ ∧
      (∀ v, Bounds v ⟨k, pc, target⟩ → Bounds v ⟨k, pc', pc.chosen r (k w) target⟩) ∧
      (pc.comparing = some (w : ℕ) → Bounds (k w) ⟨k, pc', pc.chosen r (k w) target⟩) ∧
      ∀ j : Fin n, pc'.Passed j → pc.Passed j ∨ pc.comparing = some (j : ℕ) ∧ j = w := by
  obtain ⟨hlt, hpc⟩ := h
  have hself := atMost_self k w
  cases AssignPc.afterRead_cases hr with
  | count =>
    obtain rfl := Option.some.inj hw
    obtain ⟨hi, rfl⟩ := hpc
    refine ⟨⟨hlt, hi, rfl, by simp, by simp⟩, fun v hv => Or.inl ⟨hv, by simp⟩,
      fun hc => by simp [AssignPc.comparing] at hc, fun j hj => Or.inl ?_⟩
    simpa [AssignPc.Passed] using hj
  | leftFirst =>
    obtain rfl := Option.some.inj hw
    obtain ⟨hi, rfl, -, -⟩ := hpc
    refine ⟨⟨hlt, hi, rfl, by simpa using hself, by simp⟩, fun v hv => ?_, fun _ => Or.inr rfl,
      fun j hj => ?_⟩
    · exact Or.inl ⟨(hv.resolve_right (by simp)).1, by simp⟩
    · rcases hj with hj | ⟨hj, -⟩
      · exact Or.inl (Or.inl hj)
      · exact Or.inr ⟨by simp [AssignPc.comparing, hj], Fin.ext hj⟩
  | rightFirst =>
    obtain rfl := Option.some.inj hw
    obtain ⟨hi, rfl, -, -⟩ := hpc
    refine ⟨⟨hlt, hi, rfl, by simp, fun x hx => Option.some.inj hx ▸ hself⟩, fun v hv => ?_,
      fun _ => Or.inl ⟨hself, by simp⟩, fun j hj => Or.inl hj⟩
    have hle := (hv.resolve_right (by simp)).1
    exact Or.inl ⟨hle, by simpa using hle w rfl⟩
  | leftLast =>
    obtain rfl := Option.some.inj hw
    obtain ⟨hi, rfl, -, hright⟩ := hpc
    obtain ⟨hsound, hbound, hkeep⟩ := Sound.compared maxclients hi hlt hself
      (hright _ rfl)
    refine ⟨hsound, fun v hv => ?_, fun _ => hbound, fun j hj => ?_⟩
    · obtain ⟨ht, hr⟩ := hv.resolve_right (by simp)
      exact hkeep v ⟨ht, hr _ rfl⟩
    · rcases passed_loopHead hj with hj | hj
      · exact Or.inl (Or.inl hj)
      · exact Or.inr ⟨by simp [AssignPc.comparing, hj], Fin.ext hj⟩
  | rightLast =>
    obtain rfl := Option.some.inj hw
    obtain ⟨hi, rfl, hleft, -⟩ := hpc
    obtain ⟨hsound, hbound, hkeep⟩ := Sound.compared maxclients hi hlt
      (hleft _ rfl) hself
    refine ⟨hsound, fun v hv => ?_, fun hc => ?_, fun j hj => ?_⟩
    · rcases hv with ⟨ht, -⟩ | hv
      · exact hkeep v ⟨ht, ht w rfl⟩
      · obtain rfl := Option.some.inj hv
        exact hbound
    · exact hkeep _ ⟨hself, le_rfl⟩
    · rcases passed_loopHead hj with hj | hj
      · exact Or.inl (Or.inl hj)
      · exact Or.inl (Or.inr ⟨hj, by simp⟩)

theorem Sound.step (h : s.Sound) {a : SelectionAct n} (hs : s.step maxclients a = some t) :
    t.Sound := by
  rcases step_cases hs with ⟨w, -, rfl⟩ | ⟨r, w, pc, -, hw, hr, rfl⟩
  · exact h.decrement (fun w' => by by_cases hw : w' = w <;> simp [hw])
  · exact (Sound.read h hw hr).1

theorem Bounds.step (h : s.Sound) {v : ℤ} (hb : s.Bounds v) {a : SelectionAct n}
    (hs : s.step maxclients a = some t) : t.Bounds v := by
  rcases step_cases hs with ⟨w, -, rfl⟩ | ⟨r, w, pc, -, hw, hr, rfl⟩
  · exact hb.decrement (fun w' => by by_cases hw : w' = w <;> simp [hw])
  · exact (Sound.read h hw hr).2.1 v hb

theorem Bounds.run (h : s.Sound) {v : ℤ} (hb : s.Bounds v) {tr : List (SelectionAct n)}
    (hrun : (selectionMachine n maxclients).Run s tr t) : t.Bounds v :=
  (hrun.invariant (I := fun s => s.Sound ∧ s.Bounds v) (P := fun _ => True)
    (fun _ hs hstep => ⟨hs.1.step hstep, hs.2.step hs.1 hstep⟩) ⟨h, hb⟩ fun _ _ => trivial).2

theorem Sound.run (h : s.Sound) {tr : List (SelectionAct n)}
    (hrun : (selectionMachine n maxclients).Run s tr t) : t.Sound :=
  hrun.invariant (P := fun _ => True) (fun _ hs hstep => hs.step hstep) h fun _ _ => trivial

theorem Bounds.ended {v : ℤ} (h : s.Bounds v) (hend : s.pc.LoopEnded) :
    AtMost s.counters s.target v := by
  obtain ⟨k, pc, target⟩ := s
  cases pc with
  | close | add => exact h
  | _ => exact hend.elim

/-- The next read is of `m_taskthread[j]` in the comparison of round `j`. -/
def Compares (s : Selection n) (r : CounterRead) (j : Fin n) : Prop :=
  s.pc.comparing = some (j : ℕ) ∧ s.pc.reads r = some (j : ℕ)

theorem passed_compared {s₀ : Selection n} (hn : 2 ≤ n)
    (h₀ : (selectionMachine n maxclients).start s₀) {tr : List (SelectionAct n)}
    (h : (selectionMachine n maxclients).Run s₀ tr t) (j : Fin n) (hj : t.pc.Passed j) :
    ∃ pre r post u, tr = pre ++ .read r :: post ∧
      (selectionMachine n maxclients).Run s₀ pre u ∧ u.Compares r j := by
  induction h with
  | nil =>
    rw [h₀.1, AssignPc.begin, AssignPc.loopHead, if_pos (by omega)] at hj
    exact absurd hj (Nat.not_lt_zero _)
  | @snoc u t tr a hrun hstep ih =>
    have hsound : u.Sound := (sound_start hn h₀).run hrun
    have hbefore : u.pc.Passed j → ∃ pre r post u', tr ++ [a] = pre ++ .read r :: post ∧
        (selectionMachine n maxclients).Run s₀ pre u' ∧ u'.Compares r j := by
      intro hu
      obtain ⟨pre, r, post, u', rfl, hrun', hc⟩ := ih hu
      exact ⟨pre, r, post ++ [a], u', by simp, hrun', hc⟩
    rcases step_cases hstep with ⟨w, -, rfl⟩ | ⟨r, w, pc, rfl, hw, hr, rfl⟩
    · exact hbefore hj
    · rcases (Sound.read hsound hw hr).2.2.2 j hj with hu | ⟨hc, rfl⟩
      · exact hbefore hu
      · exact ⟨tr, r, [], u, rfl, hrun, hc, hw⟩

/-- Least-loaded choice: at the end of the loop the counter of the target is not above what
was read of any worker in its own round, and the target is the worker that is added to. -/
theorem least_loaded (hn : 2 ≤ n) {s₀ : Selection n}
    (h₀ : (selectionMachine n maxclients).start s₀) {tr : List (SelectionAct n)}
    (h : (selectionMachine n maxclients).Run s₀ tr t) (hend : t.pc.LoopEnded) :
    ∃ target : Fin n, (target : ℕ) = t.target ∧ (∀ k, t.pc = .add k → k = target) ∧ ∀ j : Fin n,
      (∃ pre r post u, tr = pre ++ .read r :: post ∧
        (selectionMachine n maxclients).Run s₀ pre u ∧ u.Compares r j) ∧
      ∀ pre r post u, tr = pre ++ .read r :: post →
        (selectionMachine n maxclients).Run s₀ pre u → u.Compares r j →
          t.counters target ≤ u.counters j := by
  have hsound₀ := sound_start hn h₀
  obtain ⟨hlt, hpos⟩ := hsound₀.run h
  refine ⟨⟨t.target, hlt⟩, rfl, fun k hk => ?_, fun j => ⟨?_, ?_⟩⟩
  · rw [hk] at hpos
    exact hpos
  · apply passed_compared hn h₀ h
    cases hpc : t.pc with
    | close | add => trivial
    | _ => rw [hpc] at hend; exact hend.elim
  · rintro pre r post u rfl hu ⟨hcmp, hreads⟩
    obtain ⟨u', hu', hrest⟩ := h.split
    obtain rfl := hu.functional hu'
    obtain ⟨m, hm, hpost⟩ := hrest.first
    have hm : u.step maxclients (.read r) = some m := hm
    have hsound : u.Sound := hsound₀.run hu
    rcases step_cases hm with ⟨w, hw, -⟩ | ⟨r', w, pc, hr', hw, hr, rfl⟩
    · cases hw
    · obtain rfl := SelectionAct.read.inj hr'
      obtain rfl : j = w := Fin.ext (Option.some.inj (hreads.symm.trans hw))
      have hb := (Sound.read hsound hw hr).2.2.1 hcmp
      exact (hb.run (hsound.step hm) hpost).ended hend _ rfl

/-- Two workers, the second losing a connection between the two reads of a comparison. It is
the target, and its counter is not above the operand 3 that was read of the first. -/
theorem least_loaded_two :
    ∃ (s₀ t : Selection 2) (tr : List (SelectionAct 2)), (selectionMachine 2 10).start s₀ ∧
      (selectionMachine 2 10).Run s₀ tr t ∧ .decrement 1 ∈ tr ∧
      t.pc = .add 1 ∧ t.counters 1 ≤ 3 := by
  have h₀ : (selectionMachine 2 10).start ⟨fun _ => 3, .begin 2 10, 1⟩ := ⟨rfl, rfl⟩
  have h := Machine.Run.of_isSome (M := selectionMachine 2 10)
    (s := ⟨fun _ => 3, .begin 2 10, 1⟩)
    [.read .count, .read .left, .decrement 1, .read .right, .read .count, .read .right,
      .read .left] (by decide)
  have hread := Machine.Run.of_isSome (M := selectionMachine 2 10)
    (s := ⟨fun _ => 3, .begin 2 10, 1⟩) [.read .count] (by decide)
  obtain ⟨target, -, hadd, hleast⟩ := least_loaded le_rfl h₀ h trivial
  obtain rfl : target = 1 := Fin.ext (hadd 1 rfl).symm
  exact ⟨_, _, _, h₀, h, by decide, rfl, (hleast 0).2 _ _ _ _ rfl hread ⟨rfl, rfl⟩⟩

end Selection

namespace Server

variable {s t : Server n}

theorem call_selection {a : Action n} (ht : Transition maxclients s a t)
    (ha : ∀ fd, a ≠ .accept fd) {sockfd : Fd} {pc' : AssignPc}
    (hl : t.listener = .assigning sockfd pc') (hc : pc'.Choosing) :
    ∃ pc, s.listener = .assigning sockfd pc ∧ pc.Choosing ∧ ∀ target, ∃ acts target',
      (selectionMachine n maxclients).Run ⟨s.counts, pc, target⟩ acts ⟨t.counts, pc', target'⟩ ∧
        ∀ w, .decrement w ∈ acts → a = .handle w .dec := by
  have hquiet : s.listener = t.listener → (∀ w, a ≠ .handle w .dec) → a ≠ .assign .increment →
      ∃ pc, s.listener = .assigning sockfd pc ∧ pc.Choosing ∧ ∀ target, ∃ acts target',
        (selectionMachine n maxclients).Run ⟨s.counts, pc, target⟩ acts ⟨t.counts, pc', target'⟩ ∧
          ∀ w, .decrement w ∈ acts → a = .handle w .dec := by
    intro hsame hdec hinc
    refine ⟨pc', hsame.trans hl, hc, fun target => ⟨[], target, ?_, by simp⟩⟩
    rw [counts_eq ht hdec hinc]
    exact .nil _
  have hcounts := counts_cases ht
  cases ht with
  | shutdown => exact hquiet rfl (by simp) (by simp)
  | listenerTest => simp only at hl; split at hl <;> simp at hl
  | listenFails | refuse | addFail | increment => simp at hl
  | accept => exact (ha _ rfl).elim
  | @read fd pc pc'' r w hs hw hpc =>
    obtain ⟨rfl, rfl⟩ := ListenerPc.assigning.inj hl
    have hread : pc.afterRead n maxclients r (s.counts w) = some pc'' := hpc
    have hstep : ∀ target, Selection.step maxclients ⟨s.counts, pc, target⟩ (.read r) =
        some ⟨s.counts, pc'', pc.chosen r (s.counts w) target⟩ := by
      intro target
      simp [Selection.step, hw, Selection.counter, hread]
    refine ⟨pc, hs, (AssignPc.choosing_afterRead hpc).1, fun target => ?_⟩
    exact ⟨[.read r], pc.chosen r (s.counts w) target, .single (hstep target), by simp⟩
  | @addOk fd w c hs =>
    obtain ⟨rfl, rfl⟩ := ListenerPc.assigning.inj hl
    exact hc.elim
  | workerTest | wait | modOk | delOk | delFail => exact hquiet rfl (by simp) (by simp)
  | close => exact hquiet (by simp) (by simp) (by simp)
  | @quiet w act _ _ _ _ _ hq =>
    refine hquiet rfl (fun w' he => ?_) (by simp)
    obtain ⟨-, rfl⟩ := Action.handle.inj he
    exact hq
  | @dec w =>
    refine ⟨pc', hl, hc, fun target => ⟨[.decrement w], target, .single ?_, by simp⟩⟩
    rcases hcounts with hk | ⟨w', he, hk⟩ | ⟨_, _, he, -⟩
    · simp [counts, funext_iff, Worker.decrement] at hk
      exact absurd (hk w) (by simp)
    · obtain ⟨rfl, -⟩ := Action.handle.inj he
      rw [hk]
      rfl
    · cases he

/-- A call of `AssignTask` in a run of the server is a run of the selection loop. -/
theorem call_selection_run {call : List (Action n)} (h : (serverMachine n maxclients).Run s call t)
    (ha : ∀ fd, .accept fd ∉ call) {sockfd : Fd} {pc' : AssignPc}
    (hl : t.listener = .assigning sockfd pc') (hc : pc'.Choosing) :
    ∃ pc, s.listener = .assigning sockfd pc ∧ ∀ target, ∃ acts target',
      (selectionMachine n maxclients).Run ⟨s.counts, pc, target⟩ acts ⟨t.counts, pc', target'⟩ := by
  induction h generalizing pc' with
  | nil => exact ⟨pc', hl, fun target => ⟨[], target, .nil _⟩⟩
  | @snoc u t call a _ hstep ih =>
    simp only [List.mem_append, List.mem_singleton, not_or] at ha
    obtain ⟨pc₁, hu, hc₁, hsel⟩ := call_selection (step_cases hstep)
      (fun fd he => (ha fd).2 he.symm) hl hc
    obtain ⟨pc, hs, hrun⟩ := ih (fun fd => (ha fd).1) hu hc₁
    refine ⟨pc, hs, fun target => ?_⟩
    obtain ⟨acts, target₁, hacts⟩ := hrun target
    obtain ⟨acts', target', hacts', -⟩ := hsel target₁
    exact ⟨acts ++ acts', target', hacts.append hacts'⟩

end Server
end EpollThreads.Dispatch
