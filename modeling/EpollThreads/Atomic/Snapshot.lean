import EpollThreads.Atomic.Processor
import Mathlib.Data.Nat.ModEq

/-!
# The counters that guard a read

The last part of `iAtomic.h`: one writer counts the beginnings and the ends of
its writes, in counters that nobody else writes; readers note the ends, read, and
compare with the beginnings. Each access is the moment at which it reaches the
memory. Where `wmb` orders stores and `rmb` loads, as on the x86, the IA-64, the
Alpha and the PowerPC, they come in the order of the program, but for an end and
the next beginning, between which no barrier stands. The `wmb` and `rmb` of the
other parts do not order accesses.
-/

namespace EpollThreads.Atomic

open Foundations

universe u v w

/-- `snd_atomic_write_t` -/
structure SndAtomicWrite where
  begins : Word
  ends : Word
deriving DecidableEq

namespace SndAtomicWrite

def init : SndAtomicWrite := ⟨0, 0⟩

def writeBegin (w : SndAtomicWrite) : SndAtomicWrite := { w with begins := w.begins + 1 }

def writeEnd (w : SndAtomicWrite) : SndAtomicWrite := { w with ends := w.ends + 1 }

end SndAtomicWrite

/-- `snd_atomic_read_t`, and what has been read since `snd_atomic_read_begin`. -/
structure SndAtomicRead (L : Type v) (V : Type w) where
  ends : Word
  seen : List (L × V)

namespace SndAtomicRead

variable {L : Type v} {V : Type w}

def readBegin (w : SndAtomicWrite) : SndAtomicRead L V := ⟨w.ends, []⟩

def readOk (w : SndAtomicWrite) (r : SndAtomicRead L V) : Bool := r.ends == w.begins

end SndAtomicRead

/-- Locations with their writer's counters, and the readers that are at work; while `ending`
holds, the last end has not reached the memory. -/
structure Guarded (R : Type u) (L : Type v) (V : Type w) where
  write : SndAtomicWrite
  writing : Bool
  ending : Bool
  data : L → V
  reader : R → Option (SndAtomicRead L V)

inductive GuardedAct (R : Type u) (L : Type v) (V : Type w)
  | writeBegin
  | store (l : L) (x : V)
  | writeEnd
  | endArrives
  | readBegin (r : R)
  | load (r : R) (l : L)
  | readOk (r : R)
deriving DecidableEq

namespace Guarded

variable {R : Type u} {L : Type v} {V : Type w} [DecidableEq R] [DecidableEq L]

def setReader (s : Guarded R L V) (r : R) (x : Option (SndAtomicRead L V)) : Guarded R L V :=
  { s with reader := Function.update s.reader r x }

/-- A barrier waits for an end that has not arrived. A reader may begin again at any time;
`readOk` ends its read, whatever it says. -/
def step (s : Guarded R L V) : GuardedAct R L V → Option (Guarded R L V)
  | .writeBegin =>
    if s.writing then none else some { s with write := s.write.writeBegin, writing := true }
  | .store l x =>
    if s.writing ∧ s.ending = false then some { s with data := Function.update s.data l x }
    else none
  | .writeEnd =>
    if s.writing ∧ s.ending = false then some { s with writing := false, ending := true } else none
  | .endArrives =>
    if s.ending then some { s with write := s.write.writeEnd, ending := false } else none
  | .readBegin r => some (s.setReader r (some (.readBegin s.write)))
  | .load r l =>
    (s.reader r).map fun x => s.setReader r (some { x with seen := x.seen ++ [(l, s.data l)] })
  | .readOk r => (s.reader r).map fun _ => s.setReader r none

structure Start (s : Guarded R L V) : Prop where
  write : s.write = .init
  writing : s.writing = false
  ending : s.ending = false
  reader : ∀ r, s.reader r = none

end Guarded

def guardedMachine (R : Type u) (L : Type v) (V : Type w) [DecidableEq R] [DecidableEq L] :
    Machine (Guarded R L V) (GuardedAct R L V) where
  start := Guarded.Start
  step := Guarded.step

namespace GuardedAct

variable {R : Type u} {L : Type v} {V : Type w}

def begins : GuardedAct R L V → Bool
  | .writeBegin => true
  | _ => false

def ends : GuardedAct R L V → Bool
  | .endArrives => true
  | _ => false

end GuardedAct

namespace Guarded

variable {R : Type u} {L : Type v} {V : Type w} {s s' : Guarded R L V}
  {a : GuardedAct R L V} {tr p q : List (GuardedAct R L V)} {r : R} {x : SndAtomicRead L V}

/-- The counters count the beginnings and ends, modulo 2^32. -/
structure Counts (tr : List (GuardedAct R L V)) (s : Guarded R L V) : Prop where
  begins : s.write.begins.toNat = tr.countP GuardedAct.begins % 2 ^ 32
  ends : s.write.ends.toNat = tr.countP GuardedAct.ends % 2 ^ 32
  balance : tr.countP GuardedAct.begins =
    tr.countP GuardedAct.ends + (if s.writing then 1 else 0) + if s.ending then 1 else 0

theorem toNat_succ (w : Word) : (w + 1).toNat = (w.toNat + 1) % 2 ^ 32 := BitVec.toNat_add w 1

theorem Counts.start (h : Start s) : Counts [] s := by
  refine ⟨?_, ?_, ?_⟩
  · rw [h.write]
    rfl
  · rw [h.write]
    rfl
  · rw [h.writing, h.ending]
    rfl

theorem Counts.le (h : Counts tr s) :
    tr.countP GuardedAct.ends ≤ tr.countP GuardedAct.begins := by
  rw [h.balance, Nat.add_assoc]
  exact Nat.le_add_right _ _

theorem Counts.lt_of_writing (h : Counts tr s) (hw : s.writing = true) :
    tr.countP GuardedAct.ends < tr.countP GuardedAct.begins := by
  have hbal := h.balance
  rw [hw, if_pos rfl] at hbal
  omega

theorem Counts.lt_of_ending (h : Counts tr s) (he : s.ending = true) :
    tr.countP GuardedAct.ends < tr.countP GuardedAct.begins := by
  have hbal := h.balance
  rw [he, if_pos rfl] at hbal
  omega

theorem countP_ends_le (p q : List (GuardedAct R L V)) :
    p.countP GuardedAct.ends ≤ (p ++ q).countP GuardedAct.ends := by
  rw [List.countP_append]
  exact Nat.le_add_right _ _

/-- What a reader knows `q` after it began, `p` lying before: the number of ends it has noted,
and the present values of what it has read unless a write was at work meanwhile. -/
def Reads (r : R) (p q : List (GuardedAct R L V)) (s : Guarded R L V) : Prop :=
  ∀ x, s.reader r = some x → x.ends.toNat = p.countP GuardedAct.ends % 2 ^ 32 ∧
    ((p ++ q).countP GuardedAct.begins = p.countP GuardedAct.ends →
      ∀ y ∈ x.seen, y.2 = s.data y.1)

variable [DecidableEq R]

theorem Reads.begin (h : Counts p s) :
    Reads r p [] (s.setReader r (some (.readBegin s.write))) := by
  intro x hx
  have hx' : some (SndAtomicRead.readBegin s.write) = some x := by simpa [setReader] using hx
  obtain rfl := Option.some.inj hx'
  exact ⟨h.ends, fun _ y hy => by cases hy⟩

variable [DecidableEq L]

/-- What a step can do. -/
inductive Transition (s : Guarded R L V) : GuardedAct R L V → Guarded R L V → Prop
  | writeBegin (h : s.writing = false) :
      Transition s .writeBegin { s with write := s.write.writeBegin, writing := true }
  | store {l : L} {x : V} (h : s.writing = true) (he : s.ending = false) :
      Transition s (.store l x) { s with data := Function.update s.data l x }
  | writeEnd (h : s.writing = true) (he : s.ending = false) :
      Transition s .writeEnd { s with writing := false, ending := true }
  | endArrives (h : s.ending = true) :
      Transition s .endArrives { s with write := s.write.writeEnd, ending := false }
  | readBegin {r : R} : Transition s (.readBegin r) (s.setReader r (some (.readBegin s.write)))
  | load {r : R} {l : L} {x : SndAtomicRead L V} (h : s.reader r = some x) :
      Transition s (.load r l) (s.setReader r (some { x with seen := x.seen ++ [(l, s.data l)] }))
  | readOk {r : R} {x : SndAtomicRead L V} (h : s.reader r = some x) :
      Transition s (.readOk r) (s.setReader r none)

theorem step_cases (h : s.step a = some s') : Transition s a s' := by
  cases a with
  | writeBegin =>
    simp only [step, Option.ite_none_left_eq_some, Option.some.injEq] at h
    exact h.2 ▸ .writeBegin (Bool.eq_false_of_not_eq_true h.1)
  | store l x =>
    simp only [step, Option.ite_none_right_eq_some, Option.some.injEq] at h
    exact h.2 ▸ .store h.1.1 h.1.2
  | writeEnd =>
    simp only [step, Option.ite_none_right_eq_some, Option.some.injEq] at h
    exact h.2 ▸ .writeEnd h.1.1 h.1.2
  | endArrives =>
    simp only [step, Option.ite_none_right_eq_some, Option.some.injEq] at h
    exact h.2 ▸ .endArrives h.1
  | readBegin r => exact Option.some.inj h ▸ .readBegin
  | load r l =>
    obtain ⟨x, hx, rfl⟩ := Option.map_eq_some_iff.mp h
    exact .load hx
  | readOk r =>
    obtain ⟨x, hx, rfl⟩ := Option.map_eq_some_iff.mp h
    exact .readOk hx

theorem Counts.step (h : Counts tr s) (ht : Transition s a s') : Counts (tr ++ [a]) s' := by
  obtain ⟨hb, he, hbal⟩ := h
  have hsnoc : ∀ f : GuardedAct R L V → Bool,
      (tr ++ [a]).countP f = tr.countP f + if f a then 1 else 0 := fun f => by
    rw [List.countP_append, List.countP_singleton]
  cases ht with
  | writeBegin hw =>
    rw [hw] at hbal
    have hnew := toNat_succ s.write.begins
    refine ⟨?_, ?_, ?_⟩ <;> rw [hsnoc]
    · simp only [GuardedAct.begins, if_true, SndAtomicWrite.writeBegin]
      omega
    · exact he
    · rw [hsnoc, hbal]
      simp only [GuardedAct.begins, GuardedAct.ends, if_true, Bool.false_eq_true, if_false]
      omega
  | writeEnd hw hend =>
    rw [hw, hend] at hbal
    refine ⟨?_, ?_, ?_⟩ <;> rw [hsnoc]
    · exact hb
    · exact he
    · rw [hsnoc, hbal]
      rfl
  | endArrives hend =>
    rw [hend] at hbal
    have hnew := toNat_succ s.write.ends
    refine ⟨?_, ?_, ?_⟩ <;> rw [hsnoc]
    · exact hb
    · simp only [GuardedAct.ends, if_true, SndAtomicWrite.writeEnd]
      omega
    · rw [hsnoc, hbal]
      simp only [GuardedAct.begins, GuardedAct.ends, if_true, Bool.false_eq_true, if_false]
      omega
  | store | readBegin | load | readOk =>
    refine ⟨?_, ?_, ?_⟩ <;> rw [hsnoc]
    · exact hb
    · exact he
    · rw [hsnoc]
      exact hbal

theorem Reads.step (h : Reads r p q s) (hc : Counts (p ++ q) s) (ht : Transition s a s')
    (ha : a ≠ .readBegin r) : Reads r p (q ++ [a]) s' := by
  have hle := countP_ends_le p q
  -- a write that is at work has more beginnings than the reader has seen ends
  have hwriting : s.writing = true →
      (p ++ q).countP GuardedAct.begins ≠ p.countP GuardedAct.ends := fun hw =>
    (hle.trans_lt (hc.lt_of_writing hw)).ne'
  have hsnoc : (p ++ (q ++ [a])).countP GuardedAct.begins =
      (p ++ q).countP GuardedAct.begins + if a.begins then 1 else 0 := by
    rw [← List.append_assoc, List.countP_append, List.countP_singleton]
  intro x hx
  cases ht with
  | writeBegin hw =>
    have hbegun := hc.le
    refine ⟨(h x hx).1, fun hp => ?_⟩
    simp only [GuardedAct.begins, if_true] at hsnoc
    omega
  | store hw =>
    refine ⟨(h x hx).1, fun hp => absurd ?_ (hwriting hw)⟩
    exact hsnoc.symm.trans hp
  | writeEnd | endArrives => exact ⟨(h x hx).1, fun hp => (h x hx).2 (hsnoc.symm.trans hp)⟩
  | @readBegin r' =>
    have hne : r ≠ r' := fun he => ha (he ▸ rfl)
    have hx' : s.reader r = some x := by simpa [setReader, Function.update_of_ne hne] using hx
    exact ⟨(h x hx').1, fun hp => (h x hx').2 (hsnoc.symm.trans hp)⟩
  | @load r' l x' hr' =>
    by_cases hr : r = r'
    · subst hr
      obtain ⟨hends, hseen⟩ := h x' hr'
      have hx' : some { x' with seen := x'.seen ++ [(l, s.data l)] } = some x := by
        simpa [setReader] using hx
      obtain rfl := Option.some.inj hx'
      refine ⟨hends, fun hp y hy => ?_⟩
      rcases List.mem_append.mp hy with hy | hy
      · exact hseen (hsnoc.symm.trans hp) y hy
      · rw [List.mem_singleton.mp hy]
        rfl
    · have hx' : s.reader r = some x := by simpa [setReader, Function.update_of_ne hr] using hx
      exact ⟨(h x hx').1, fun hp => (h x hx').2 (hsnoc.symm.trans hp)⟩
  | @readOk r' x' hr' =>
    by_cases hr : r = r'
    · subst hr
      simp [setReader] at hx
    · have hx' : s.reader r = some x := by simpa [setReader, Function.update_of_ne hr] using hx
      exact ⟨(h x hx').1, fun hp => (h x hx').2 (hsnoc.symm.trans hp)⟩

theorem Counts.of_reaches (h : (guardedMachine R L V).Reaches tr s) : Counts tr s :=
  h.history (Q := Counts) Counts.start fun _ hc hstep => hc.step (step_cases hstep)

/-- Along what follows the beginning of a read. -/
theorem Reads.of_run (hp : (guardedMachine R L V).Reaches (p ++ [.readBegin r]) s)
    (h : (guardedMachine R L V).Run s q s') (hq : .readBegin r ∉ q) :
    Reads r (p ++ [.readBegin r]) q s' := by
  induction h with
  | nil =>
    obtain ⟨s₀, hs₀, hrun⟩ := hp
    obtain ⟨u, hu, hstep⟩ := hrun.last
    have hc := Counts.of_reaches ⟨s₀, hs₀, hrun⟩
    obtain rfl : u.setReader r (some (.readBegin u.write)) = s := Option.some.inj hstep
    exact Reads.begin ⟨hc.begins, hc.ends, hc.balance⟩
  | @snoc u v q a hrun hstep ih =>
    rw [List.mem_append, List.mem_singleton, not_or] at hq
    obtain ⟨s₀, hs₀, hrun₀⟩ := hp
    have hc := Counts.of_reaches ⟨s₀, hs₀, hrun₀.append hrun⟩
    exact (ih hq.1).step hc (step_cases hstep) (Ne.symm hq.2)

/-- `snd_atomic_read_ok` compares the writes begun by now with those whose end had arrived when
the read began. As long as these are not 2^32 apart, it lets a read pass only if no write was at
work at any time between, and what has been read is the data as they are now. -/
theorem read_ok_iff (h : (guardedMachine R L V).Reaches (p ++ .readBegin r :: q) s)
    (hq : .readBegin r ∉ q) (hx : s.reader r = some x) :
    (x.readOk s.write = true ↔
        (p ++ q).countP GuardedAct.begins ≡ p.countP GuardedAct.ends [MOD 2 ^ 32]) ∧
      ((p ++ q).countP GuardedAct.begins < p.countP GuardedAct.ends + 2 ^ 32 →
        x.readOk s.write = true →
          s.writing = false ∧ s.ending = false ∧
            (p ++ q).countP GuardedAct.ends = p.countP GuardedAct.ends ∧
            ∀ y ∈ x.seen, y.2 = s.data y.1) := by
  have hsplit : p ++ .readBegin r :: q = (p ++ [.readBegin r]) ++ q := by simp
  have hbegins : (p ++ .readBegin r :: q).countP GuardedAct.begins =
      (p ++ q).countP GuardedAct.begins := by simp [GuardedAct.begins]
  have hends : (p ++ .readBegin r :: q).countP GuardedAct.ends =
      (p ++ q).countP GuardedAct.ends := by simp [GuardedAct.ends]
  have hfront : (p ++ [GuardedAct.readBegin r]).countP GuardedAct.ends =
      p.countP GuardedAct.ends := by simp [GuardedAct.ends]
  have hc := Counts.of_reaches h
  have hreads : Reads r (p ++ [.readBegin r]) q s := by
    obtain ⟨s₀, hs₀, hrun⟩ := h
    rw [hsplit] at hrun
    obtain ⟨u, hp, hrun⟩ := hrun.split
    exact Reads.of_run ⟨s₀, hs₀, hp⟩ hrun hq
  obtain ⟨hnoted, hseen⟩ := hreads x hx
  rw [← hsplit, hbegins, hfront] at hseen
  rw [hfront] at hnoted
  have hok : x.readOk s.write = true ↔
      (p ++ q).countP GuardedAct.begins ≡ p.countP GuardedAct.ends [MOD 2 ^ 32] := by
    rw [SndAtomicRead.readOk, beq_iff_eq, ← BitVec.toNat_inj, hnoted, hc.begins, hbegins]
    exact eq_comm
  refine ⟨hok, fun hfew htrue => ?_⟩
  have hle := countP_ends_le p q
  have hended := hc.le
  rw [hbegins, hends] at hended
  have heq : (p ++ q).countP GuardedAct.begins = p.countP GuardedAct.ends := by
    have hmod : (p ++ q).countP GuardedAct.begins % 2 ^ 32 =
        p.countP GuardedAct.ends % 2 ^ 32 := hok.mp htrue
    omega
  refine ⟨?_, ?_, by omega, hseen heq⟩
  · by_contra hw
    have hlt := hc.lt_of_writing (eq_true_of_ne_false hw)
    omega
  · by_contra he
    have hlt := hc.lt_of_ending (eq_true_of_ne_false he)
    omega

def unwritten : Guarded Bool Bool Word := ⟨.init, false, false, fun _ => 0, fun _ => none⟩

/-- Two writes; the second beginning overtakes the first end. -/
def twoWrites : List (GuardedAct Bool Bool Word) :=
  [.writeBegin, .store false 1, .writeEnd, .writeBegin, .endArrives, .store true 1, .writeEnd,
    .endArrives]

/-- Another reader begins, and is still at it. -/
def oneRead : List (GuardedAct Bool Bool Word) :=
  [.load false false, .readBegin true, .load true false, .load false true]

theorem read_ok_iff_oneRead :
    ∃ s x, (guardedMachine Bool Bool Word).Reaches
        (twoWrites ++ .readBegin false :: oneRead) s ∧
      s.reader false = some x ∧ x.readOk s.write = true ∧
      s.writing = false ∧ x.seen = [(false, 1), (true, 1)] ∧ ∀ y ∈ x.seen, y.2 = s.data y.1 := by
  have hreach := Machine.Reaches.of_isSome (M := guardedMachine Bool Bool Word) (s := unwritten)
    ⟨rfl, rfl, rfl, fun _ => rfl⟩ (twoWrites ++ .readBegin false :: oneRead) (by decide)
  have hspec := read_ok_iff (x := ⟨2, [(false, 1), (true, 1)]⟩) hreach (by decide) (by rfl)
  have hok : SndAtomicRead.readOk _ (⟨2, [(false, 1), (true, 1)]⟩ : SndAtomicRead Bool Word) =
      true := hspec.1.mpr rfl
  obtain ⟨hw, -, -, hdata⟩ := hspec.2 (by decide) hok
  exact ⟨_, _, hreach, rfl, hok, hw, rfl, hdata⟩

end Guarded

end EpollThreads.Atomic
