import EpollThreads.Atomic.Linearizable

/-!
# The header as an atomic counter

Whatever processor the header is compiled for, threads that use its functions
see one counter on which every call takes effect at one instant. So no update is
lost: with nobody inside a call, the counter is what the calls have added.
-/

namespace EpollThreads.Atomic

open Foundations Routine

universe u

/-- What the comments of the header say that a function does. -/
def Fn.operation : Fn → Operation Word (Option Word)
  | .read => ⟨id, some⟩
  | .set i => ⟨fun _ => i, fun _ => none⟩
  | .add i => ⟨fun v => v + i, fun _ => none⟩
  | .sub i => ⟨fun v => v - i, fun _ => none⟩
  | .addReturn i => ⟨fun v => v + i, fun v => some (v + i)⟩
  | .subReturn i => ⟨fun v => v - i, fun v => some (v - i)⟩
  | .inc => ⟨fun v => v + 1, fun _ => none⟩
  | .dec => ⟨fun v => v - 1, fun _ => none⟩
  | .incReturn => ⟨fun v => v + 1, fun v => some (v + 1)⟩
  | .decReturn => ⟨fun v => v - 1, fun v => some (v - 1)⟩
  | .subAndTest i => ⟨fun v => v - i, fun v => some (truth (v - i = 0))⟩
  | .decAndTest => ⟨fun v => v - 1, fun v => some (truth (v - 1 = 0))⟩
  | .incAndTest => ⟨fun v => v + 1, fun v => some (truth (v + 1 = 0))⟩
  | .addNegative i => ⟨fun v => v + i, fun v => some (truth ((v + i).toInt < 0))⟩
  | .decIfPositive => ⟨fun v => if 0 < v.toInt then v - 1 else v, fun v => some (v - 1)⟩

/-- What a call does: the IA-64's `atomic_inc_and_test` tests for the opposite, and
`atomic_dec_if_positive` looks at the sign of the result, which in the 64-bit mode is negative
for 0 only. -/
def Arch.operation (a : Arch) (site : Site) : Operation Word (Option Word) :=
  match site.fn with
  | .incAndTest =>
    if a = .ia64 then ⟨fun v => v + 1, fun v => some (truth (v + 1 ≠ 0))⟩
    else site.fn.operation
  | .decIfPositive =>
    if a = .powerpc64 then ⟨fun v => if v = 0 then v else v - 1, fun v => some (v - 1)⟩
    else ⟨fun v => if (v - 1).msb then v else v - 1, fun v => some (v - 1)⟩
  | _ => site.fn.operation

theorem msb_sub_one {v : Word} (hv : v ≠ BitVec.intMin 32) :
    (v - 1).msb = !decide (0 < v.toInt) := by
  have hne : v.toNat ≠ 2 ^ 31 := fun h => hv (BitVec.eq_of_toNat_eq h)
  have hlt := v.isLt
  rw [BitVec.msb_eq_decide, BitVec.toNat_sub, BitVec.toInt_eq_toNat_cond]
  rw [← decide_not, decide_eq_decide, show (1 : Word).toNat = 1 from rfl]
  split <;> omega

theorem toInt_nonneg_cases {v : Word} (hv : 0 ≤ v.toInt) : v = 0 ∨ 0 < v.toInt := by
  rcases hv.eq_or_lt with h | h
  · exact Or.inl (BitVec.eq_of_toInt_eq h.symm)
  · exact Or.inr h

/-- The departures from the comments, and where they are seen. -/
theorem Arch.operation_eq (a : Arch) (site : Site)
    (h : site.fn = .incAndTest → a ≠ .ia64) {v : Word}
    (hv : site.fn = .decIfPositive → v ≠ BitVec.intMin 32)
    (hwide : site.fn = .decIfPositive → a = .powerpc64 → 0 ≤ v.toInt) :
    (a.operation site).update v = site.fn.operation.update v ∧
      (a.operation site).result v = site.fn.operation.result v := by
  obtain ⟨fn, known⟩ := site
  cases fn
  case incAndTest => simp [operation, h rfl]
  case decIfPositive =>
    by_cases ha : a = .powerpc64
    · simp only [operation, Fn.operation, if_pos ha, and_true]
      rcases toInt_nonneg_cases (hwide rfl ha) with rfl | hpos
      · rfl
      · have hne : v ≠ 0 := by
          rintro rfl
          exact absurd hpos (by decide)
        rw [if_neg hne, if_pos hpos]
    · simp only [operation, Fn.operation, if_neg ha, msb_sub_one (hv rfl), and_true]
      by_cases hpos : 0 < v.toInt <;> simp [hpos]
  all_goals exact ⟨rfl, rfl⟩

theorem truth_truth (b : Bool) : truth (truth b ≠ 0) = truth b := by
  cases b <;> rfl

theorem toInt_neg_iff (v : Word) : decide (v.toInt < 0) = v.msb := by
  rw [BitVec.msb_eq_toInt]

theorem X86.implements {site : Site} {r : Routine} (h : routine site.fn = some r) :
    r.Implements (Arch.operation .x86 site) := by
  obtain ⟨fn, known⟩ := site
  cases fn <;> simp only [routine, Option.some.injEq, reduceCtorEq] at h <;> subst h
  case read => exact load_implements
  case set i => exact assign_implements i
  case add i => exact locked_implements .add i
  case sub i => exact locked_implements .sub i
  case inc => exact locked_implements .add 1
  case dec => exact locked_implements .sub 1
  case subAndTest i => exact lockedEqual_implements .sub i
  case decAndTest =>
    have h := (lockedEqual_implements .sub 1).test (· ≠ 0)
    simp only [Option.map_some, truth_truth] at h
    exact h
  case incAndTest =>
    have h := (lockedEqual_implements .add 1).test (· ≠ 0)
    simp only [Option.map_some, truth_truth] at h
    exact h
  case addNegative i =>
    simpa only [Arch.operation, Fn.operation, Alu.eval, toInt_neg_iff] using
      lockedSign_implements .add i

theorem IA64.implements {site : Site} {r : Routine} (h : routine site.known site.fn = some r) :
    r.Implements (Arch.operation .ia64 site) := by
  obtain ⟨fn, known⟩ := site
  cases fn <;> simp only [routine, Option.some.injEq, reduceCtorEq] at h <;> subst h
  case read => exact load_implements
  case set i => exact assign_implements i
  case add i => exact (addReturn_implements known i).drop
  case sub i => exact (subReturn_implements known i).drop
  case addReturn i => exact addReturn_implements known i
  case subReturn i => exact subReturn_implements known i
  case inc => exact (addReturn_implements true 1).drop
  case dec => exact (subReturn_implements true 1).drop
  case incReturn => exact addReturn_implements true 1
  case decReturn => exact subReturn_implements true 1
  case subAndTest i => exact (subReturn_implements known i).test (· = 0)
  case decAndTest => exact (subReturn_implements true 1).test (· = 0)
  case incAndTest => exact (addReturn_implements true 1).test (· ≠ 0)
  case addNegative i =>
    simpa only [Arch.operation, Fn.operation, Option.map_some, toInt_neg_iff] using
      (atomicAdd_implements i).test (·.msb)

theorem Alpha.implements {site : Site} {r : Routine} (h : routine site.fn = some r) :
    r.Implements (Arch.operation .alpha site) := by
  obtain ⟨fn, known⟩ := site
  cases fn <;> simp only [routine, Option.some.injEq, reduceCtorEq] at h <;> subst h
  case read => exact load_implements
  case set i => exact assign_implements i
  case add i => exact loop_implements .add i
  case sub i => exact loop_implements .sub i
  case addReturn i => exact returnLoop_implements .add i
  case subReturn i => exact returnLoop_implements .sub i
  case inc => exact loop_implements .add 1
  case dec => exact loop_implements .sub 1
  case incReturn => exact returnLoop_implements .add 1
  case decReturn => exact returnLoop_implements .sub 1
  case subAndTest i => exact (returnLoop_implements .sub i).test (· = 0)
  case decAndTest => exact (returnLoop_implements .sub 1).test (· = 0)

theorem PowerPC.implements {wide : Bool} {site : Site} {r : Routine}
    (h : routine wide site.fn = some r) :
    r.Implements (Arch.operation (if wide then .powerpc64 else .powerpc) site) := by
  obtain ⟨fn, known⟩ := site
  have hsub : ∀ v : Word, v - 1 = v + -1 := fun v => BitVec.sub_eq_add_neg v 1
  cases fn <;> simp only [routine, Option.some.injEq, reduceCtorEq] at h <;> subst h
  case read => exact load_implements
  case set i => exact assign_implements i
  case add a => exact loop_implements .add a
  case sub a => exact loop_implements .sub a
  case addReturn a => exact returnLoop_implements .add a
  case subReturn a => exact returnLoop_implements .sub a
  case inc => exact loop_implements .add 1
  case incReturn => exact returnLoop_implements .add 1
  case dec =>
    simpa only [Arch.operation, Fn.operation, Alu.eval, hsub] using loop_implements .add (-1)
  case decReturn =>
    simpa only [Arch.operation, Fn.operation, Alu.eval, hsub] using returnLoop_implements .add (-1)
  case subAndTest a => exact (returnLoop_implements .sub a).test (· = 0)
  case decAndTest =>
    simpa only [Arch.operation, Fn.operation, Alu.eval, Option.map_some, hsub] using
      (returnLoop_implements .add (-1)).test (· = 0)
  case decIfPositive =>
    cases wide with
    | false =>
      change Routine.Implements _ ⟨fun v => if (v - 1).msb then v else v - 1, fun v => some (v - 1)⟩
      simpa only [below, hsub, Bool.false_eq_true, if_false] using decIfPositive_implements false
    | true =>
      change Routine.Implements _ ⟨fun v => if v = 0 then v else v - 1, fun v => some (v - 1)⟩
      simpa only [below, hsub, if_true, decide_eq_true_eq] using decIfPositive_implements true

theorem MIPS.implements {site : Site} {r : Routine} (h : routine site.fn = some r) :
    r.Implements (Arch.operation .mips site) := by
  obtain ⟨fn, known⟩ := site
  cases fn <;> simp only [routine, Option.some.injEq, reduceCtorEq] at h <;> subst h
  case read => exact load_implements
  case set i => exact assign_implements i
  case add i => exact loop_implements .add i
  case sub i => exact loop_implements .sub i
  case addReturn i => exact returnLoop_implements .add i
  case subReturn i => exact returnLoop_implements .sub i
  case inc => exact loop_implements .add 1
  case dec => exact loop_implements .sub 1
  case incReturn => exact returnLoop_implements .add 1
  case decReturn => exact returnLoop_implements .sub 1
  case subAndTest i => exact (returnLoop_implements .sub i).test (· = 0)
  case decAndTest => exact (returnLoop_implements .sub 1).test (· = 0)

theorem Arch.implements (a : Arch) (site : Site) (r : Routine) (h : a.routine site = some r) :
    r.Implements (a.operation site) := by
  cases a with
  | x86 => exact X86.implements h
  | ia64 => exact IA64.implements h
  | alpha => exact Alpha.implements h
  | powerpc => exact PowerPC.implements h
  | powerpc64 => exact PowerPC.implements h
  | mips => exact MIPS.implements h

variable {T : Type u} [DecidableEq T] {v : Word} {s₀ s : Shared T Site}
  {tr : List (Action T Site)}

/-- The calls and returns of a run of instructions. -/
def Arch.history (a : Arch) (v : Word) (s₀ : Shared T Site) (tr : List (Action T Site)) :
    List (AtomicObject.Event T Site (Option Word)) :=
  (machine T a.routine v).record (Shared.seen a.routine) s₀ tr

/-- Whatever the interleaving of their instructions, threads that use the header see an atomic
counter. -/
theorem Arch.linearizable (a : Arch) (hs : Shared.Start v s₀)
    (h : (machine T a.routine v).Run s₀ tr s) :
    ∃ o₀ tr' o, AtomicObject.Start v o₀ ∧ (AtomicObject.machine T a.operation v).Run o₀ tr' o ∧
      AtomicObject.history a.operation v o₀ tr' = a.history v s₀ tr ∧
      o.value = s.counter ∧ ∀ t, s.call t = .idle → o.phase t = .idle := by
  have hsim := simulation (T := T) (v := v) a.implements
  obtain ⟨o₀, ho₀, hr₀⟩ := hsim.start hs
  obtain ⟨tr', o, hrun, hr, hrec⟩ := hsim.run h hr₀
  exact ⟨o₀, tr', o, ho₀, hrun, hrec, hr.counter, fun t ht => phase_of_idle (hr.call t) ht⟩

section Contention

/-- A counter that nobody uses. -/
def resting (v : Word) : Shared Bool Site := ⟨v, fun _ => false, fun _ => .idle⟩

def Fn.site (fn : Fn) : Site := ⟨fn, true⟩

/-- Two threads between `lwarx` and `stwcx.`: the one that stores last has to start again. -/
def contention : List (Action Bool Site) :=
  [.call false Fn.inc.site (fun _ => 0) ⟨false, false⟩,
    .call true Fn.decIfPositive.site (fun _ => 0) ⟨false, false⟩,
    .exec false false, .exec true false, .exec true false, .exec true false, .exec true false,
    .exec false false, .exec false false, .exec false false, .exec true false,
    .exec false false, .exec true false, .exec false false, .exec false false,
    .exec false false, .ret false, .ret true]

theorem Arch.linearizable_contention :
    ∃ s, (machine Bool Arch.powerpc.routine 7).Run (resting 7) contention s ∧
      ∃ o₀ tr' o, AtomicObject.Start 7 o₀ ∧
        (AtomicObject.machine Bool Arch.powerpc.operation 7).Run o₀ tr' o ∧
        AtomicObject.history Arch.powerpc.operation 7 o₀ tr' =
          Arch.powerpc.history 7 (resting 7) contention ∧
        o.value = s.counter ∧ ∀ t, s.call t = .idle → o.phase t = .idle := by
  have hrun := Machine.Run.of_isSome (M := machine Bool Arch.powerpc.routine 7) (s := resting 7)
    contention (by decide)
  exact ⟨_, hrun, Arch.linearizable .powerpc ⟨rfl, fun _ => rfl⟩ hrun⟩

end Contention

/-- The functions that add to the counter. -/
def Fn.adds : Fn → Bool
  | .set _ => false
  | _ => true

/-- What a call has added that returns `w`. -/
def Arch.added (a : Arch) (fn : Fn) (w : Option Word) : Word :=
  match fn with
  | .add i | .addReturn i | .addNegative i => i
  | .sub i | .subReturn i | .subAndTest i => -i
  | .inc | .incReturn | .incAndTest => 1
  | .dec | .decReturn | .decAndTest => -1
  | .decIfPositive =>
    if w.any fun w => if a = .powerpc64 then w = -1 else w.msb then 0 else -1
  | .read | .set _ => 0

theorem ite_eq_add_ite (p : Prop) [Decidable p] (w : Word) :
    (if p then w else w - 1) = w + if p then 0 else -1 := by
  split
  · exact (BitVec.add_zero w).symm
  · exact BitVec.sub_eq_add_neg w 1

theorem Arch.update_eq_add (a : Arch) (site : Site) (h : site.fn.adds) (w : Word) :
    (a.operation site).update w = w + a.added site.fn ((a.operation site).result w) := by
  obtain ⟨fn, known⟩ := site
  cases fn
  case set => simp [Fn.adds] at h
  case incAndTest =>
    simp only [operation, Fn.operation, added]
    split <;> rfl
  case decIfPositive =>
    by_cases ha : a = .powerpc64
    · have hzero : w - 1 = -1 ↔ w = 0 := by
        rw [BitVec.sub_eq_iff_eq_add]
        rfl
      simp only [operation, added, if_pos ha, Option.any_some, decide_eq_true_eq, hzero]
      exact ite_eq_add_ite (w = 0) w
    · simp only [operation, added, if_neg ha, Option.any_some]
      exact ite_eq_add_ite ((w - 1).msb = true) w
  case read => exact (BitVec.add_zero w).symm
  case sub i | subReturn i | subAndTest i => exact BitVec.sub_eq_add_neg w i
  case dec | decReturn | decAndTest => exact BitVec.sub_eq_add_neg w 1
  all_goals simp only [operation, Fn.operation, added]

theorem record_calls {ι : Type} {routine : ι → Option Routine} {s₀ s : Shared T ι}
    {tr : List (Action T ι)} (h : (machine T routine v).Run s₀ tr s) {t : T} {i : ι}
    (hmem : .call t i ∈ (machine T routine v).record (Shared.seen routine) s₀ tr) :
    ∃ regs flags, .call t i regs flags ∈ tr := by
  induction h with
  | nil => simp [Machine.record] at hmem
  | @snoc u w tr a hrun hstep ih =>
    rw [hrun.record_snoc, List.mem_append] at hmem
    rcases hmem with hmem | hmem
    · obtain ⟨regs, flags, hmem⟩ := ih hmem
      exact ⟨regs, flags, List.mem_append_left _ hmem⟩
    · cases a with
      | call t' i' regs flags =>
        simp only [Shared.seen, Option.toList_some, List.mem_singleton,
          AtomicObject.Event.call.injEq] at hmem
        obtain ⟨rfl, rfl⟩ := hmem
        exact ⟨regs, flags, by simp⟩
      | exec | lose => simp [Shared.seen] at hmem
      | ret t' =>
        simp only [Shared.seen] at hmem
        split at hmem
        · simp at hmem
        · simp [Option.bind_eq_some_iff] at hmem

/-- No update is lost: when nobody is inside a call, the counter is what the calls that have
returned have added to it. -/
theorem Arch.counter_eq (a : Arch) [Fintype T] (hs : Shared.Start v s₀)
    (h : (machine T a.routine v).Run s₀ tr s)
    (hadds : ∀ t site regs flags, .call t site regs flags ∈ tr → site.fn.adds)
    (hidle : ∀ t, s.call t = .idle) :
    s.counter = v + ((AtomicObject.returned (a.history v s₀ tr)).map
      fun p => a.added p.1.fn p.2).sum := by
  obtain ⟨o₀, tr', o, ho₀, hrun, hhist, hval, hphase⟩ := a.linearizable hs h
  have hcalls : ∀ x site, .call x site ∈ AtomicObject.history a.operation v o₀ tr' →
      site.fn.adds = true := by
    intro x site hmem
    rw [hhist] at hmem
    obtain ⟨regs, flags, hmem⟩ := record_calls h hmem
    exact hadds x site regs flags hmem
  have hcount := AtomicObject.value_eq_add (γ := fun site w => a.added site.fn w)
    a.update_eq_add ho₀ hrun hcalls
  have hnone : ∑ x, (o.phase x).credit (fun site w => a.added site.fn w) = 0 :=
    Finset.sum_eq_zero fun x _ => by rw [hphase x (hidle x)]; rfl
  rw [← hval, hcount, hnone, add_zero, hhist]
  rfl

theorem Arch.counter_eq_contention :
    ∃ s, (machine Bool Arch.powerpc.routine 7).Run (resting 7) contention s ∧
      s.counter = 7 + ((AtomicObject.returned
        (Arch.powerpc.history 7 (resting 7) contention)).map
          fun p => Arch.powerpc.added p.1.fn p.2).sum := by
  have hrun := Machine.Run.of_isSome (M := machine Bool Arch.powerpc.routine 7) (s := resting 7)
    contention (by decide)
  refine ⟨_, hrun, Arch.counter_eq .powerpc ⟨rfl, fun _ => rfl⟩ hrun ?_ fun t => by cases t <;> rfl⟩
  intro t site regs flags hmem
  simp only [contention, List.mem_cons, Action.call.injEq, reduceCtorEq, or_false,
    List.not_mem_nil] at hmem
  rcases hmem with ⟨-, rfl, -⟩ | ⟨-, rfl, -⟩ <;> rfl

end EpollThreads.Atomic
