import EpollThreads.Atomic.Routines

/-!
# The routines of `iAtomic.h` take effect at one instant

Each family of loops is followed once from its load to its store. The table of
every processor then implements the operations that the comments of the header
describe, but for two: `atomic_inc_and_test` of the IA-64, which tests for the
opposite, and `atomic_dec_if_positive` at the least `int`.
-/

namespace EpollThreads.Atomic

open Foundations

namespace Routine

variable {r : Routine} {op : Operation Word (Option Word)} {v : Word} {c d : Cpu} {x : Reg}

theorem Settles.taken {p : Bool} {target : ℕ} (h : r.quiet c = some (c.branch p target))
    (hp : p = true) (hs : r.Settles { c with pc := target } d) : r.Settles c d := by
  subst hp
  exact .step h hs

theorem Settles.missed {p : Bool} {target : ℕ} (h : r.quiet c = some (c.branch p target))
    (hp : p = false) (hs : r.Settles c.advance d) : r.Settles c d := by
  subst hp
  exact .step h hs

theorem Implements.of_regs (quiet : ∀ del regs flags, r.quiet ⟨0, del, regs, flags⟩ = none)
    (leaves : ∀ del regs flags, r.leaves ⟨0, del, regs, flags⟩ = none)
    (enabled : ∀ m linked del regs flags, (r.access m linked ⟨0, del, regs, flags⟩).isSome)
    (access : ∀ {m linked regs flags c' e},
      r.access m linked ⟨0, none, regs, flags⟩ = some (c', e) →
      match e with
      | .store w => w = op.update m ∧ r.Returns (op.result m) c'
      | .link => r.Attempts op true m c' ∨ (op.update m = m ∧ r.Returns (op.result m) c')
      | .keep => r.Attempts op false m c' ∨ (op.update m = m ∧ r.Returns (op.result m) c')
      | .unlink => False) : r.Implements op where
  quiet {c} hpc := by
    obtain ⟨pc, del, regs, flags⟩ := c
    obtain rfl : pc = 0 := hpc
    exact quiet del regs flags
  leaves {c} hpc := by
    obtain ⟨pc, del, regs, flags⟩ := c
    obtain rfl : pc = 0 := hpc
    exact leaves del regs flags
  enabled {c m linked} hpc := by
    obtain ⟨pc, del, regs, flags⟩ := c
    obtain rfl : pc = 0 := hpc
    exact enabled m linked del regs flags
  access {c m linked c' e} hpc hdel ha := by
    obtain ⟨pc, del, regs, flags⟩ := c
    obtain rfl : pc = 0 := hpc
    obtain rfl : del = none := hdel
    exact access ha

theorem attempts_storeConditional (hd : r.Settles c d)
    (hi : r.instr d = some (.storeConditional x)) (hw : d.regs x = op.update v)
    (stored : r.Returns (op.result v) (d.set x 1).advance)
    (failed : r.Retries (d.set x 0).advance) : r.Attempts op true v c := by
  refine ⟨d, hd, by simp [leaves, hi], fun linked hl => ?_,
    fun m linked => by simp [access, hi, Instr.access], ?_⟩
  · obtain rfl := hl rfl
    exact ⟨_, _, by simp only [access, hi, Option.bind_some, Instr.access, if_true]; rfl⟩
  intro m linked c' e hl ha
  simp only [access, hi, Option.bind_some, Instr.access, Option.some.injEq, Prod.mk.injEq] at ha
  obtain ⟨rfl, rfl⟩ := ha
  cases linked with
  | true =>
    obtain rfl := hl rfl
    exact ⟨hw, stored⟩
  | false => exact failed

theorem attempts_storeConditionalRecord (hd : r.Settles c d)
    (hi : r.instr d = some (.storeConditionalRecord x)) (hw : d.regs x = op.update v)
    (stored : r.Returns (op.result v) { d with flags := ⟨true, false⟩ }.advance)
    (failed : r.Retries { d with flags := ⟨false, false⟩ }.advance) :
    r.Attempts op true v c := by
  refine ⟨d, hd, by simp [leaves, hi], fun linked hl => ?_,
    fun m linked => by simp [access, hi, Instr.access], ?_⟩
  · obtain rfl := hl rfl
    exact ⟨_, _, by simp only [access, hi, Option.bind_some, Instr.access, if_true]; rfl⟩
  intro m linked c' e hl ha
  simp only [access, hi, Option.bind_some, Instr.access, Option.some.injEq, Prod.mk.injEq] at ha
  obtain ⟨rfl, rfl⟩ := ha
  cases linked with
  | true =>
    obtain rfl := hl rfl
    exact ⟨hw, stored⟩
  | false => exact failed

theorem attempts_compareExchange {y z : Reg} (hd : r.Settles c d)
    (hi : r.instr d = some (.compareExchange x y z)) (hy : d.regs y = v)
    (hz : d.regs z = op.update v) (stored : r.Returns (op.result v) (d.set x v).advance)
    (failed : ∀ m, m ≠ v → r.Retries (d.set x m).advance) : r.Attempts op false v c := by
  refine ⟨d, hd, by simp [leaves, hi], fun linked _ => ?_,
    fun m linked => by simp [access, hi, Instr.access], ?_⟩
  · exact ⟨_, _, by simp only [access, hi, Option.bind_some, Instr.access, hy, if_true]; rfl⟩
  intro m linked c' e _ ha
  simp only [access, hi, Option.bind_some, Instr.access, Option.some.injEq, Prod.mk.injEq] at ha
  obtain ⟨rfl, rfl⟩ := ha
  rw [hy, hz]
  by_cases hm : m = v
  · subst hm
    simpa using stored
  · simpa [hm] using failed m hm

/-- The same instructions with another `return`. -/
theorem Implements.map (h : r.Implements op) (r' : Routine) (g : Option Word → Option Word)
    (hp : r'.program = r.program) (hv : ∀ regs, r'.value regs = g (r.value regs)) :
    r'.Implements ⟨op.update, fun v => g (op.result v)⟩ := by
  have hq : r'.quiet = r.quiet := by
    funext c
    simp [Routine.quiet, instr, hp]
  have ha : r'.access = r.access := by
    funext v linked c
    simp [Routine.access, instr, hp]
  have hl : ∀ c, r'.leaves c = (r.leaves c).map g := by
    intro c
    have hi : r'.instr c = r.instr c := by simp [instr, hp]
    simp only [Routine.leaves, hi, hv]
    split <;> rfl
  have hs : ∀ {c d}, r.Settles c d → r'.Settles c d := by
    intro c d h
    induction h with
    | stop h => exact .stop (hq ▸ h)
    | step h _ ih => exact .step (hq ▸ h) ih
  have hret : ∀ {w c}, r.Returns w c → r'.Returns (g w) c := by
    rintro w c ⟨d, hd, hw⟩
    exact ⟨d, hs hd, by rw [hl, hw]; rfl⟩
  have hretry : ∀ {c}, r.Retries c → r'.Retries c := by
    rintro c ⟨d, hd, hpc⟩
    exact ⟨d, hs hd, hpc⟩
  have hatt : ∀ {needs v c}, r.Attempts op needs v c →
      r'.Attempts ⟨op.update, fun v => g (op.result v)⟩ needs v c := by
    rintro needs v c ⟨d, hd, hnone, hsucc, hsome, hacc⟩
    refine ⟨d, hs hd, by rw [hl, hnone]; rfl, by rwa [Succeeds, ha], by rwa [ha],
      fun m linked c' e hm he => ?_⟩
    rw [ha] at he
    have := hacc m linked c' e hm he
    cases e with
    | store w => exact ⟨this.1, hret this.2⟩
    | keep | unlink => exact hretry this
    | link => exact this
  refine ⟨fun hpc => hq ▸ h.quiet hpc, fun hpc => by rw [hl, h.leaves hpc]; rfl,
    fun hpc => ha ▸ h.enabled hpc, ?_⟩
  intro c m linked c' e hpc hdel he
  rw [ha] at he
  have := h.access hpc hdel he
  cases e with
  | store w => exact ⟨this.1, hret this.2⟩
  | keep | link => exact this.imp hatt fun hsame => ⟨hsame.1, hret hsame.2⟩
  | unlink => exact this

theorem Implements.drop (h : r.Implements op) : r.drop.Implements ⟨op.update, fun _ => none⟩ :=
  h.map r.drop (fun _ => none) rfl fun _ => rfl

theorem Implements.test (h : r.Implements op) (p : Word → Bool) :
    (r.test p).Implements
      ⟨op.update, fun v => (op.result v).map fun w => truth (p w)⟩ :=
  h.map (r.test p) (Option.map fun w => truth (p w)) rfl fun _ => rfl

theorem load_implements : load.Implements ⟨id, some⟩ := by
  refine .of_regs (fun _ _ _ => rfl) (fun _ _ _ => rfl) (fun _ _ _ _ _ => rfl) fun ha => ?_
  obtain ⟨rfl, rfl⟩ : _ ∧ _ := Prod.mk.inj (Option.some.inj ha)
  exact Or.inr ⟨rfl, _, .stop rfl, rfl⟩

theorem assign_implements (i : Word) : (assign i).Implements ⟨fun _ => i, fun _ => none⟩ := by
  refine .of_regs (fun _ _ _ => rfl) (fun _ _ _ => rfl) (fun _ _ _ _ _ => rfl) fun ha => ?_
  obtain ⟨rfl, rfl⟩ : _ ∧ _ := Prod.mk.inj (Option.some.inj ha)
  exact ⟨rfl, _, .stop rfl, rfl⟩

end Routine

open Routine

namespace X86

theorem locked_implements (f : Alu) (i : Word) :
    (locked f i).Implements ⟨fun v => f.eval v i, fun _ => none⟩ := by
  refine .of_regs (fun _ _ _ => rfl) (fun _ _ _ => rfl) (fun _ _ _ _ _ => rfl) fun ha => ?_
  obtain ⟨rfl, rfl⟩ : _ ∧ _ := Prod.mk.inj (Option.some.inj ha)
  exact ⟨rfl, _, .stop rfl, rfl⟩

theorem lockedEqual_implements (f : Alu) (i : Word) :
    (lockedEqual f i).Implements
      ⟨fun v => f.eval v i, fun v => some (truth (f.eval v i = 0))⟩ := by
  refine .of_regs (fun _ _ _ => rfl) (fun _ _ _ => rfl) (fun _ _ _ _ _ => rfl) fun ha => ?_
  obtain ⟨rfl, rfl⟩ : _ ∧ _ := Prod.mk.inj (Option.some.inj ha)
  exact ⟨rfl, _, .step rfl (.stop rfl), rfl⟩

theorem lockedSign_implements (f : Alu) (i : Word) :
    (lockedSign f i).Implements
      ⟨fun v => f.eval v i, fun v => some (truth (f.eval v i).msb)⟩ := by
  refine .of_regs (fun _ _ _ => rfl) (fun _ _ _ => rfl) (fun _ _ _ _ _ => rfl) fun ha => ?_
  obtain ⟨rfl, rfl⟩ : _ ∧ _ := Prod.mk.inj (Option.some.inj ha)
  exact ⟨rfl, _, .step rfl (.stop rfl), rfl⟩

end X86

namespace IA64

theorem atomicAdd_implements (i : Word) :
    (atomicAdd i).Implements ⟨fun v => v + i, fun v => some (v + i)⟩ := by
  refine .of_regs (fun _ _ _ => rfl) (fun _ _ _ => rfl) (fun _ _ _ _ _ => rfl) fun ha => ?_
  obtain ⟨rfl, rfl⟩ : _ ∧ _ := Prod.mk.inj (Option.some.inj ha)
  refine Or.inl (attempts_compareExchange (.step rfl (.step rfl (.stop rfl))) rfl rfl rfl
    ⟨_, .missed rfl ?_ (.stop rfl), rfl⟩ fun w hw => ⟨_, .taken rfl ?_ (.stop rfl), rfl, rfl⟩)
  · exact decide_eq_false (not_not_intro rfl)
  · exact decide_eq_true hw

theorem atomicSub_implements (i : Word) :
    (atomicSub i).Implements ⟨fun v => v - i, fun v => some (v - i)⟩ := by
  refine .of_regs (fun _ _ _ => rfl) (fun _ _ _ => rfl) (fun _ _ _ _ _ => rfl) fun ha => ?_
  obtain ⟨rfl, rfl⟩ : _ ∧ _ := Prod.mk.inj (Option.some.inj ha)
  refine Or.inl (attempts_compareExchange (.step rfl (.stop rfl)) rfl rfl rfl
    ⟨_, .missed rfl ?_ (.stop rfl), rfl⟩ fun w hw => ⟨_, .taken rfl ?_ (.stop rfl), rfl, rfl⟩)
  · exact decide_eq_false (not_not_intro rfl)
  · exact decide_eq_true hw

theorem fetchAndAdd_implements (i : Word) :
    (fetchAndAdd i).Implements ⟨fun v => v + i, fun v => some (v + i)⟩ := by
  refine .of_regs (fun _ _ _ => rfl) (fun _ _ _ => rfl) (fun _ _ _ _ _ => rfl) fun ha => ?_
  obtain ⟨rfl, rfl⟩ : _ ∧ _ := Prod.mk.inj (Option.some.inj ha)
  exact ⟨rfl, _, .stop rfl, rfl⟩

/-- Both ways to add, and it cannot be told which one was taken. -/
theorem addReturn_implements (known : Bool) (i : Word) :
    (addReturn known i).Implements ⟨fun v => v + i, fun v => some (v + i)⟩ := by
  unfold addReturn
  split
  · exact fetchAndAdd_implements i
  · exact atomicAdd_implements i

theorem subReturn_implements (known : Bool) (i : Word) :
    (subReturn known i).Implements ⟨fun v => v - i, fun v => some (v - i)⟩ := by
  unfold subReturn
  split
  · simpa only [BitVec.sub_eq_add_neg] using fetchAndAdd_implements (-i)
  · exact atomicSub_implements i

end IA64

namespace Alpha

theorem loop_implements (f : Alu) (i : Word) :
    (loop f i).Implements ⟨fun v => f.eval v i, fun _ => none⟩ := by
  refine .of_regs (fun _ _ _ => rfl) (fun _ _ _ => rfl) (fun _ _ _ _ _ => rfl) fun ha => ?_
  obtain ⟨rfl, rfl⟩ : _ ∧ _ := Prod.mk.inj (Option.some.inj ha)
  exact Or.inl (attempts_storeConditional (.step rfl (.stop rfl)) rfl rfl
    ⟨_, .step rfl (.stop rfl), rfl⟩ ⟨_, .step rfl (.step rfl (.stop rfl)), rfl, rfl⟩)

theorem returnLoop_implements (f : Alu) (i : Word) :
    (returnLoop f i).Implements ⟨fun v => f.eval v i, fun v => some (f.eval v i)⟩ := by
  refine .of_regs (fun _ _ _ => rfl) (fun _ _ _ => rfl) (fun _ _ _ _ _ => rfl) fun ha => ?_
  obtain ⟨rfl, rfl⟩ : _ ∧ _ := Prod.mk.inj (Option.some.inj ha)
  exact Or.inl (attempts_storeConditional (.step rfl (.step rfl (.stop rfl))) rfl rfl
    ⟨_, .step rfl (.step rfl (.stop rfl)), rfl⟩
    ⟨_, .step rfl (.step rfl (.stop rfl)), rfl, rfl⟩)

end Alpha

namespace PowerPC

theorem loop_implements (f : Alu) (i : Word) :
    (loop f i).Implements ⟨fun v => f.eval v i, fun _ => none⟩ := by
  refine .of_regs (fun _ _ _ => rfl) (fun _ _ _ => rfl) (fun _ _ _ _ _ => rfl) fun ha => ?_
  obtain ⟨rfl, rfl⟩ : _ ∧ _ := Prod.mk.inj (Option.some.inj ha)
  exact Or.inl (attempts_storeConditionalRecord (.step rfl (.stop rfl)) rfl rfl
    ⟨_, .step rfl (.stop rfl), rfl⟩ ⟨_, .step rfl (.stop rfl), rfl, rfl⟩)

theorem returnLoop_implements (f : Alu) (i : Word) :
    (returnLoop f i).Implements ⟨fun v => f.eval v i, fun v => some (f.eval v i)⟩ := by
  refine .of_regs (fun _ _ _ => rfl) (fun _ _ _ => rfl) (fun _ _ _ _ _ => rfl) fun ha => ?_
  obtain ⟨rfl, rfl⟩ : _ ∧ _ := Prod.mk.inj (Option.some.inj ha)
  exact Or.inl (attempts_storeConditionalRecord (.step rfl (.stop rfl)) rfl rfl
    ⟨_, .step rfl (.step rfl (.stop rfl)), rfl⟩ ⟨_, .step rfl (.stop rfl), rfl, rfl⟩)

/-- The bit LT that `addic.` leaves in CR0. -/
def below (wide : Bool) (v : Word) : Bool := if wide then v = 0 else (v + -1).msb

theorem negative_addRecord (wide : Bool) (v : Word) :
    (if wide then Flags.ofWide v (-1) else Flags.of (v + -1)).negative = below wide v := by
  cases wide with
  | false => rfl
  | true =>
    have hone : (-1 : Word).toInt = -1 := rfl
    have hzero : v = 0 ↔ v.toNat = 0 :=
      ⟨fun hv => by rw [hv]; rfl, fun hv => BitVec.eq_of_toNat_eq hv⟩
    simp only [Flags.ofWide, below, if_true, hone, hzero, decide_eq_decide]
    omega

/-- A negative result never gets to the store: the load was the whole of the call. -/
theorem decIfPositive_implements (wide : Bool) :
    (decIfPositive wide).Implements
      ⟨fun v => if below wide v then v else v + -1, fun v => some (v + -1)⟩ := by
  refine .of_regs (fun _ _ _ => rfl) (fun _ _ _ => rfl) (fun _ _ _ _ _ => rfl)
    fun {m _ _ _ _ _} ha => ?_
  obtain ⟨rfl, rfl⟩ : _ ∧ _ := Prod.mk.inj (Option.some.inj ha)
  have hflag := negative_addRecord wide m
  cases hneg : below wide m with
  | true =>
    rw [hneg] at hflag
    exact Or.inr ⟨if_pos hneg, _, .step rfl (.taken rfl hflag (.stop rfl)), rfl⟩
  | false =>
    rw [hneg] at hflag
    refine Or.inl (attempts_storeConditionalRecord
      (.step rfl (.missed rfl hflag (.stop rfl))) rfl ?_
      ⟨_, .step rfl (.step rfl (.stop rfl)), rfl⟩ ⟨_, .step rfl (.stop rfl), rfl, rfl⟩)
    simp only [hneg]
    rfl

end PowerPC

namespace MIPS

theorem loop_implements (f : Alu) (i : Word) :
    (loop f i).Implements ⟨fun v => f.eval v i, fun _ => none⟩ := by
  refine .of_regs (fun _ _ _ => rfl) (fun _ _ _ => rfl) (fun _ _ _ _ _ => rfl) fun ha => ?_
  obtain ⟨rfl, rfl⟩ : _ ∧ _ := Prod.mk.inj (Option.some.inj ha)
  exact Or.inl (attempts_storeConditional (.step rfl (.stop rfl)) rfl rfl
    ⟨_, .step rfl (.stop rfl), rfl⟩ ⟨_, .step rfl (.stop rfl), rfl, rfl⟩)

/-- The delay slot makes good what `sc` has done to the result. -/
theorem returnLoop_implements (f : Alu) (i : Word) :
    (returnLoop f i).Implements ⟨fun v => f.eval v i, fun v => some (f.eval v i)⟩ := by
  refine .of_regs (fun _ _ _ => rfl) (fun _ _ _ => rfl) (fun _ _ _ _ _ => rfl) fun ha => ?_
  obtain ⟨rfl, rfl⟩ : _ ∧ _ := Prod.mk.inj (Option.some.inj ha)
  exact Or.inl (attempts_storeConditional (.step rfl (.stop rfl)) rfl rfl
    ⟨_, .step rfl (.step rfl (.stop rfl)), rfl⟩
    ⟨_, .step rfl (.step rfl (.stop rfl)), rfl, rfl⟩)

end MIPS

end EpollThreads.Atomic
