import EpollThreads.Atomic.Processor
import EpollThreads.Foundations.Simulation

/-!
# When a routine takes effect at one instant

Between two accesses to the counter a processor runs on its own, so a routine is
known by where it gets to after each access. `Implements` asks of each access
that it is a failed try, or takes effect as the operation does; the routines
that meet it can be run by any number of threads, in any interleaving, and
show only the histories of the atomic object.
-/

namespace EpollThreads.Atomic

open Foundations AtomicObject

universe u v

namespace Routine

/-- A processor gets from `c` to `d` without touching the counter, and `d` is at an access or at
the end. -/
inductive Settles (r : Routine) : Cpu → Cpu → Prop
  | stop {c : Cpu} (h : r.quiet c = none) : Settles r c c
  | step {c c' d : Cpu} (h : r.quiet c = some c') (hs : Settles r c' d) : Settles r c d

variable {r : Routine} {op : Operation Word (Option Word)} {c c' d : Cpu}

theorem Settles.tail (h : r.Settles c d) (hq : r.quiet c = some c') : r.Settles c' d := by
  cases h with
  | stop h => simp [h] at hq
  | step h hs =>
    obtain rfl := Option.some.inj (h.symm.trans hq)
    exact hs

theorem Settles.eq (h : r.Settles c d) (hq : r.quiet c = none) : d = c := by
  cases h with
  | stop => rfl
  | step h => simp [hq] at h

theorem access_of_quiet (h : r.quiet c = some c') (v : Word) (linked : Bool) :
    r.access v linked c = none := by
  obtain ⟨i, hi, hq⟩ := Option.bind_eq_some_iff.mp h
  simp only [access, hi, Option.bind_some]
  cases i <;> first | rfl | cases hq

theorem quiet_of_leaves {w : Option Word} (h : r.leaves c = some w) : r.quiet c = none := by
  unfold leaves at h
  split at h
  · next hi => simp [quiet, hi, Instr.quiet]
  · cases h

theorem access_of_leaves {w : Option Word} (h : r.leaves c = some w) (v : Word) (linked : Bool) :
    r.access v linked c = none := by
  unfold leaves at h
  split at h
  · next hi => simp [access, hi, Instr.access]
  · cases h

/-- The call is over, but for the way to its end. -/
def Returns (r : Routine) (w : Option Word) (c : Cpu) : Prop :=
  ∃ d, r.Settles c d ∧ r.leaves d = some w

/-- The call starts all over. -/
def Retries (r : Routine) (c : Cpu) : Prop := ∃ d, r.Settles c d ∧ d.pc = 0 ∧ d.delayed = none

/-- The access at `d` stores, on a counter that still holds `v` and, where the access `needs` it,
under a reservation that still stands. -/
def Succeeds (r : Routine) (needs : Bool) (v : Word) (d : Cpu) : Prop :=
  ∀ linked, (needs = true → linked = true) → ∃ c' w, r.access v linked d = some (c', .store w)

/-- A processor that has read `v` is on its way to an access that fails or takes effect, and
takes effect if nothing comes between. -/
def Attempts (r : Routine) (op : Operation Word (Option Word)) (needs : Bool) (v : Word)
    (c : Cpu) : Prop :=
  ∃ d, r.Settles c d ∧ r.leaves d = none ∧ r.Succeeds needs v d ∧
    (∀ m linked, (r.access m linked d).isSome) ∧
    ∀ m linked c' e, (linked = true → m = v) → r.access m linked d = some (c', e) →
      match e with
      | .store w => w = op.update m ∧ r.Returns (op.result m) c'
      | .keep | .unlink => r.Retries c'
      | .link => False

/-- The first access takes effect, or reads the value for an attempt. -/
structure Implements (r : Routine) (op : Operation Word (Option Word)) : Prop where
  quiet : ∀ {c}, c.pc = 0 → r.quiet c = none
  leaves : ∀ {c}, c.pc = 0 → r.leaves c = none
  enabled : ∀ {c m linked}, c.pc = 0 → (r.access m linked c).isSome
  access : ∀ {c m linked c' e}, c.pc = 0 → c.delayed = none →
    r.access m linked c = some (c', e) →
      match e with
      | .store w => w = op.update m ∧ r.Returns (op.result m) c'
      | .link => r.Attempts op true m c' ∨ (op.update m = m ∧ r.Returns (op.result m) c')
      | .keep => r.Attempts op false m c' ∨ (op.update m = m ∧ r.Returns (op.result m) c')
      | .unlink => False

end Routine

open Routine

variable {T : Type u} {ι : Type v}
variable {routine : ι → Option Routine} {op : ι → Operation Word (Option Word)}

/-- What a call in the machine stands for in the atomic object. -/
inductive Matches (routine : ι → Option Routine) (op : ι → Operation Word (Option Word))
    (counter : Word) (reserved : Bool) : Call ι → Phase ι (Option Word) → Prop
  | idle : Matches routine op counter reserved .idle .idle
  | seeking {i : ι} {r : Routine} {c : Cpu} (hi : routine i = some r) (h : r.Retries c) :
      Matches routine op counter reserved (.running i c) (.called i)
  | attempting {i : ι} {r : Routine} {c : Cpu} {needs : Bool} {v : Word}
      (hi : routine i = some r) (h : r.Attempts (op i) needs v c)
      (hres : reserved = true → counter = v) :
      Matches routine op counter reserved (.running i c) (.called i)
  | leaving {i : ι} {r : Routine} {c : Cpu} {w : Option Word} (hi : routine i = some r)
      (h : r.Returns w c) : Matches routine op counter reserved (.running i c) (.finished i w)

/-- What other threads do to a thread: they can take its reservation away. -/
theorem Matches.mono {m m' : Word} {b b' : Bool} {k : Call ι} {p : Phase ι (Option Word)}
    (h : Matches routine op m b k p) (hb : b' = true → b = true ∧ m' = m) :
    Matches routine op m' b' k p := by
  cases h with
  | idle => exact .idle
  | seeking hi h => exact .seeking hi h
  | attempting hi h hres =>
    refine .attempting hi h fun hb' => ?_
    obtain ⟨hold, hm⟩ := hb hb'
    exact hm.trans (hres hold)
  | leaving hi h => exact .leaving hi h

structure Represents (routine : ι → Option Routine) (op : ι → Operation Word (Option Word))
    (s : Shared T ι) (o : State T ι Word (Option Word)) : Prop where
  counter : o.value = s.counter
  call : ∀ t, Matches routine op s.counter (s.reserved t) (s.call t) (o.phase t)

variable [DecidableEq T] {s s' : Shared T ι} {o : State T ι Word (Option Word)} {t : T}

/-- The thread that has moved on, and the others, whose reservations may be gone. -/
theorem Represents.update (h : Represents routine op s o) {s' : Shared T ι} {k : Call ι}
    {p : Phase ι (Option Word)} {m : Word}
    (hcall : s'.call = Function.update s.call t k) (hm : m = s'.counter)
    (hres : ∀ x, x ≠ t → s'.reserved x = true →
      s.reserved x = true ∧ s'.counter = s.counter)
    (ht : Matches routine op s'.counter (s'.reserved t) k p) :
    Represents routine op s' { value := m, phase := Function.update o.phase t p } := by
  refine ⟨hm, fun x => ?_⟩
  by_cases hx : x = t
  · subst hx
    simpa [hcall] using ht
  · simpa [hcall, Function.update_of_ne hx] using (h.call x).mono (hres x hx)

theorem reserved_apply {e : Effect} {x : T} (hx : x ≠ t) (h : (s.apply t e).reserved x = true) :
    s.reserved x = true ∧ (s.apply t e).counter = s.counter := by
  cases e with
  | keep => exact ⟨h, rfl⟩
  | link | unlink => exact ⟨by simpa [Shared.apply, Function.update_of_ne hx] using h, rfl⟩
  | store w => simp [Shared.apply] at h

theorem Represents.begin (h : Represents routine op s o) {i : ι} {r : Routine}
    (hi : routine i = some r) (hr : r.Implements (op i)) (regs : Regs) (flags : Flags) :
    Represents routine op (s.setCall t (.running i ⟨0, none, regs, flags⟩))
      (o.setPhase t (.called i)) := by
  have hnew : r.Retries ⟨0, none, regs, flags⟩ := ⟨_, .stop (hr.quiet rfl), rfl, rfl⟩
  exact h.update rfl h.counter (fun x _ hx => ⟨hx, rfl⟩) (.seeking hi hnew)

theorem Represents.quiet (h : Represents routine op s o) {i : ι} {r : Routine} {c c' : Cpu}
    (hcall : s.call t = .running i c) (hi : routine i = some r) (hq : r.quiet c = some c') :
    Represents routine op (s.setCall t (.running i c')) o := by
  have ht := h.call t
  rw [hcall] at ht
  have hsame : ({ value := o.value, phase := Function.update o.phase t (o.phase t) } :
      State T ι Word (Option Word)) = o := by
    rw [Function.update_eq_self]
  rw [← hsame]
  refine h.update rfl h.counter (fun x _ hx => ⟨hx, rfl⟩) ?_
  generalize o.phase t = p at ht
  cases ht with
  | @seeking _ r' _ hi' hr =>
    obtain rfl := Option.some.inj (hi.symm.trans hi')
    obtain ⟨d, hd, hpc⟩ := hr
    exact .seeking hi ⟨d, hd.tail hq, hpc⟩
  | @attempting _ r' _ needs v hi' ha hres =>
    obtain rfl := Option.some.inj (hi.symm.trans hi')
    obtain ⟨d, hd, hacc⟩ := ha
    exact .attempting hi ⟨d, hd.tail hq, hacc⟩ hres
  | @leaving _ r' _ w hi' hl =>
    obtain rfl := Option.some.inj (hi.symm.trans hi')
    obtain ⟨d, hd, hw⟩ := hl
    exact .leaving hi ⟨d, hd.tail hq, hw⟩

/-- An access of a call: it takes effect, or it has not stored anything. -/
theorem Represents.access (h : Represents routine op s o) {i : ι} {r : Routine} {c c' : Cpu}
    {e : Effect} {spurious : Bool} (hcall : s.call t = .running i c) (hi : routine i = some r)
    (hop : r.Implements (op i)) (hq : r.quiet c = none)
    (ha : r.access s.counter (s.reserved t && !spurious) c = some (c', e)) :
    Represents routine op ((s.apply t e).setCall t (.running i c')) o ∧ (∀ w, e ≠ .store w) ∨
      o.phase t = .called i ∧ (op i).update s.counter = (s.apply t e).counter ∧
        Represents routine op ((s.apply t e).setCall t (.running i c'))
          { o.setPhase t (.finished i ((op i).result o.value)) with
            value := (op i).update o.value } := by
  have ht := h.call t
  rw [hcall] at ht
  have hcall' : ((s.apply t e).setCall t (.running i c')).call =
      Function.update s.call t (.running i c') :=
    congrArg (fun f => Function.update f t _) (Shared.call_apply s t e)
  have stay : Matches routine op (s.apply t e).counter ((s.apply t e).reserved t)
      (.running i c') (.called i) → o.phase t = .called i →
      o.value = (s.apply t e).counter →
      Represents routine op ((s.apply t e).setCall t (.running i c')) o := by
    intro hm hp hv
    have hsame : ({ value := o.value, phase := Function.update o.phase t (.called i) } :
        State T ι Word (Option Word)) = o := by
      rw [← hp, Function.update_eq_self]
    rw [← hsame]
    exact h.update hcall' hv (fun x hx hr => reserved_apply hx hr) hm
  have commit : r.Returns ((op i).result s.counter) c' →
      (op i).update s.counter = (s.apply t e).counter →
      Represents routine op ((s.apply t e).setCall t (.running i c'))
        { o.setPhase t (.finished i ((op i).result o.value)) with
          value := (op i).update o.value } := by
    intro hret hv
    rw [← h.counter] at hv hret
    exact h.update hcall' hv (fun x hx hr => reserved_apply hx hr) (.leaving hi hret)
  generalize hp : o.phase t = p at ht
  cases ht with
  | @seeking _ r' _ hi' hr =>
    obtain rfl := Option.some.inj (hi.symm.trans hi')
    obtain ⟨d, hd, hpc, hdel⟩ := hr
    obtain rfl := hd.eq hq
    have hacc := hop.access hpc hdel ha
    cases e with
    | store w =>
      obtain ⟨rfl, hret⟩ := hacc
      exact Or.inr ⟨rfl, rfl, commit hret rfl⟩
    | link | keep =>
      rcases hacc with hatt | ⟨hsame, hret⟩
      · exact Or.inl ⟨stay (.attempting hi hatt fun _ => rfl) hp h.counter, nofun⟩
      · exact Or.inr ⟨rfl, hsame, commit hret hsame⟩
    | unlink => exact hacc.elim
  | @attempting _ r' _ needs v hi' hatt hres =>
    obtain rfl := Option.some.inj (hi.symm.trans hi')
    obtain ⟨d, hd, -, -, -, hacc⟩ := hatt
    obtain rfl := hd.eq hq
    have hacc := hacc _ _ _ _ (fun hl => hres (Bool.and_elim_left hl)) ha
    cases e with
    | store w =>
      obtain ⟨rfl, hret⟩ := hacc
      exact Or.inr ⟨rfl, rfl, commit hret rfl⟩
    | keep | unlink => exact Or.inl ⟨stay (.seeking hi hacc) hp h.counter, nofun⟩
    | link => exact hacc.elim
  | @leaving _ r' _ w hi' hl =>
    obtain rfl := Option.some.inj (hi.symm.trans hi')
    obtain ⟨d, hd, hw⟩ := hl
    obtain rfl := hd.eq hq
    rw [access_of_leaves hw] at ha
    cases ha

theorem Represents.lose (h : Represents routine op s o) :
    Represents routine op { s with reserved := Function.update s.reserved t false } o := by
  refine ⟨h.counter, fun x => (h.call x).mono fun hx => ⟨?_, rfl⟩⟩
  by_cases hxt : x = t
  · simp [hxt] at hx
  · simpa [Function.update_of_ne hxt] using hx

theorem Represents.ret (h : Represents routine op s o) :
    Represents routine op (s.setCall t .idle) (o.setPhase t .idle) :=
  h.update rfl h.counter (fun _ _ hx => ⟨hx, rfl⟩) .idle

omit [DecidableEq T] in
theorem phase_of_idle {m : Word} {b : Bool} {k : Call ι} {p : Phase ι (Option Word)}
    (h : Matches routine op m b k p) (hk : k = .idle) : p = .idle := by
  subst hk
  cases h
  rfl

omit [DecidableEq T] in
/-- The end of a call: it has taken effect, and returns the result it had then. -/
theorem phase_of_leaves (h : Represents routine op s o) {i : ι} {r : Routine} {c : Cpu}
    {w : Option Word} (hcall : s.call t = .running i c) (hi : routine i = some r)
    (hop : r.Implements (op i)) (hl : r.leaves c = some w) : o.phase t = .finished i w := by
  have ht := h.call t
  rw [hcall] at ht
  have hq := quiet_of_leaves hl
  generalize o.phase t = p at ht
  cases ht with
  | @seeking _ r' _ hi' hr =>
    obtain rfl := Option.some.inj (hi.symm.trans hi')
    obtain ⟨d, hd, hpc, -⟩ := hr
    obtain rfl := hd.eq hq
    rw [hop.leaves hpc] at hl
    cases hl
  | @attempting _ r' _ needs v hi' hatt hres =>
    obtain rfl := Option.some.inj (hi.symm.trans hi')
    obtain ⟨d, hd, hnone, -⟩ := hatt
    obtain rfl := hd.eq hq
    rw [hnone] at hl
    cases hl
  | @leaving _ r' _ w' hi' hret =>
    obtain rfl := Option.some.inj (hi.symm.trans hi')
    obtain ⟨d, hd, hw⟩ := hret
    obtain rfl := hd.eq hq
    obtain rfl := Option.some.inj (hl.symm.trans hw)
    rfl

variable [DecidableEq ι]

/-- Threads that run routines which take effect at one instant refine the atomic object. -/
theorem simulation {v : Word} (hop : ∀ i r, routine i = some r → r.Implements (op i)) :
    Simulation (machine T routine v) (AtomicObject.machine T op v) (Represents routine op)
      (Shared.seen routine) (fun _ => AtomicObject.Action.shown) where
  start {s} hs := by
    refine ⟨⟨s.counter, fun _ => .idle⟩, ⟨hs.counter, fun _ => rfl⟩, rfl, fun t => ?_⟩
    rw [hs.call t]
    exact .idle
  step {s o a s'} h hstep := by
    change Shared.step routine s a = some s' at hstep
    cases Shared.step_cases hstep with
    | @call t i r regs flags hcall hi =>
      have hp : o.phase t = .idle := phase_of_idle (h.call t) hcall
      have hstep' : (AtomicObject.machine T op v).step o (.call t i) =
          some (o.setPhase t (.called i)) := by
        simp [AtomicObject.machine, AtomicObject.step, hp]
      exact Simulation.follow hstep' (h.begin hi (hop i r hi) regs flags) rfl
    | quiet hcall hi hq => exact Simulation.stutter (h.quiet hcall hi hq) rfl
    | @access t i r c c' e spurious hcall hi hq ha =>
      rcases h.access hcall hi (hop i r hi) hq ha with ⟨hr, -⟩ | ⟨hp, -, hr⟩
      · exact Simulation.stutter hr rfl
      · have hstep' : (AtomicObject.machine T op v).step o (.commit t) =
            some { o.setPhase t (.finished i ((op i).result o.value)) with
              value := (op i).update o.value } := by
          simp [AtomicObject.machine, AtomicObject.step, hp]
        exact Simulation.follow hstep' hr rfl
    | lose => exact Simulation.stutter h.lose rfl
    | @ret t i r c w hcall hi hl =>
      have hp := phase_of_leaves h hcall hi (hop i r hi) hl
      have hstep' : (AtomicObject.machine T op v).step o (.ret t i w) =
          some (o.setPhase t .idle) := by
        simp [AtomicObject.machine, AtomicObject.step, hp]
      refine Simulation.follow hstep' h.ret ?_
      simp [Shared.seen, hcall, hi, hl, AtomicObject.Action.shown]

end EpollThreads.Atomic
