import EpollThreads.Atomic.Header
import EpollThreads.Foundations.Potential
import Mathlib.Algebra.Order.BigOperators.Group.Finset

/-!
# Calls come to their end

A failed try is somebody else's success, or the loss of a reservation. So the
number of accesses to the counter is bounded by the number of calls and losses,
and a thread that runs alone gets to the end of its call.
-/

namespace EpollThreads.Atomic

open Foundations AtomicObject Routine

universe u v

namespace Shared

variable {T : Type u} {ι : Type v} [DecidableEq T] (routine : ι → Option Routine)

/-- The thread that touches the counter. -/
def touches (s : Shared T ι) : Action T ι → Option T
  | .exec t _ =>
    match s.call t with
    | .idle => none
    | .running i c => (routine i).bind fun r => if (r.quiet c).isNone then some t else none
  | _ => none

end Shared

namespace Action

variable {T : Type u} {ι : Type v}

def calls : Action T ι → Bool
  | .call .. => true
  | _ => false

/-- A reservation gets lost without a store. -/
def disturbs : Action T ι → Bool
  | .lose _ => true
  | .exec _ spurious => spurious
  | _ => false

end Action

section Owing

variable {T : Type u} {ι : Type v} {routine : ι → Option Routine}
  {op : ι → Operation Word (Option Word)}

/-- How many accesses a call is sure to be paid for, with `k` other threads: the two of its next
try, two for each try that its own store will spoil, and one for a try that is spoilt already. -/
inductive Owes (routine : ι → Option Routine) (op : ι → Operation Word (Option Word)) (k : ℕ)
    (counter : Word) (reserved : Bool) : Call ι → ℕ → Prop
  | idle : Owes routine op k counter reserved .idle 0
  | seeking {i : ι} {r : Routine} {c : Cpu} (hi : routine i = some r) (h : r.Retries c) :
      Owes routine op k counter reserved (.running i c) (2 * k + 2)
  | hopeful {i : ι} {r : Routine} {c : Cpu} {needs : Bool} (hi : routine i = some r)
      (h : r.Attempts (op i) needs counter c) (hres : needs = true → reserved = true) :
      Owes routine op k counter reserved (.running i c) (2 * k + 1)
  | beaten {i : ι} {r : Routine} {c : Cpu} {needs : Bool} {v : Word} (hi : routine i = some r)
      (h : r.Attempts (op i) needs v c) (hres : reserved = true → counter = v) :
      Owes routine op k counter reserved (.running i c) (2 * k + 3)
  | leaving {i : ι} {r : Routine} {c : Cpu} {w : Option Word} (hi : routine i = some r)
      (h : r.Returns w c) : Owes routine op k counter reserved (.running i c) 0

variable {k n : ℕ} {m m' : Word} {b b' : Bool} {q : Call ι}

/-- What other threads do to a thread: they can spoil its try. -/
theorem Owes.disturbed (h : Owes routine op k m b q n) (hb : b' = true → b = true ∧ m' = m) :
    ∃ n' ≤ n + 2, Owes routine op k m' b' q n' := by
  cases h with
  | idle => exact ⟨0, Nat.zero_le _, .idle⟩
  | seeking hi h => exact ⟨_, Nat.le_add_right _ 2, .seeking hi h⟩
  | hopeful hi h hres => exact ⟨_, le_rfl, .beaten hi h fun hb' => (hb hb').2⟩
  | beaten hi h hres =>
    exact ⟨_, Nat.le_add_right _ 2,
      .beaten hi h fun hb' => (hb hb').2.trans (hres (hb hb').1)⟩
  | leaving hi h => exact ⟨0, Nat.zero_le _, .leaving hi h⟩

section Running

variable {i : ι} {r : Routine} {c c' : Cpu}

theorem Owes.quiet (h : Owes routine op k m b (.running i c) n) (hi : routine i = some r)
    (hq : r.quiet c = some c') : Owes routine op k m b (.running i c') n := by
  cases h with
  | seeking hi' h =>
    obtain rfl := Option.some.inj (hi.symm.trans hi')
    obtain ⟨d, hd, hpc⟩ := h
    exact .seeking hi ⟨d, hd.tail hq, hpc⟩
  | hopeful hi' h hres =>
    obtain rfl := Option.some.inj (hi.symm.trans hi')
    obtain ⟨d, hd, hacc⟩ := h
    exact .hopeful hi ⟨d, hd.tail hq, hacc⟩ hres
  | beaten hi' h hres =>
    obtain rfl := Option.some.inj (hi.symm.trans hi')
    obtain ⟨d, hd, hacc⟩ := h
    exact .beaten hi ⟨d, hd.tail hq, hacc⟩ hres
  | leaving hi' h =>
    obtain rfl := Option.some.inj (hi.symm.trans hi')
    obtain ⟨d, hd, hw⟩ := h
    exact .leaving hi ⟨d, hd.tail hq, hw⟩

variable {linked : Bool} {e : Effect}

theorem Owes.store (h : Owes routine op k m b (.running i c) n) (hi : routine i = some r)
    (hop : r.Implements (op i)) (hq : r.quiet c = none) (hl : linked = true → b = true) {w : Word}
    (ha : r.access m linked c = some (c', .store w)) :
    2 * k + 1 ≤ n ∧ ∃ res, r.Returns res c' := by
  cases h with
  | seeking hi' h =>
    obtain rfl := Option.some.inj (hi.symm.trans hi')
    obtain ⟨d, hd, hpc, hdel⟩ := h
    obtain rfl := hd.eq hq
    exact ⟨Nat.le_succ _, _, (hop.access hpc hdel ha).2⟩
  | hopeful hi' h hres =>
    obtain rfl := Option.some.inj (hi.symm.trans hi')
    obtain ⟨d, hd, -, -, -, hacc⟩ := h
    obtain rfl := hd.eq hq
    exact ⟨le_rfl, _, (hacc _ _ _ _ (fun _ => rfl) ha).2⟩
  | beaten hi' h hres =>
    obtain rfl := Option.some.inj (hi.symm.trans hi')
    obtain ⟨d, hd, -, -, -, hacc⟩ := h
    obtain rfl := hd.eq hq
    exact ⟨Nat.le_add_right _ 2, _, (hacc _ _ _ _ (fun h => hres (hl h)) ha).2⟩
  | leaving hi' h =>
    obtain rfl := Option.some.inj (hi.symm.trans hi')
    obtain ⟨d, hd, hw⟩ := h
    obtain rfl := hd.eq hq
    rw [access_of_leaves hw] at ha
    cases ha

/-- What an access that does not store leaves of the thread's own reservation. -/
def Effect.reserves : Effect → Bool → Bool
  | .link, _ => true
  | .unlink, _ => false
  | _, b => b

/-- An access that does not store pays for itself, but for a conditional store that fails by
itself. -/
theorem Owes.tried (h : Owes routine op k m b (.running i c) n) (hi : routine i = some r)
    (hop : r.Implements (op i)) (hq : r.quiet c = none) {spurious : Bool}
    (ha : r.access m (b && !spurious) c = some (c', e)) (he : ∀ w, e ≠ .store w) :
    ∃ n', Owes routine op k m (e.reserves b) (.running i c') n' ∧
      n' + 1 ≤ n + if spurious then 2 else 0 := by
  cases h with
  | seeking hi' h =>
    obtain rfl := Option.some.inj (hi.symm.trans hi')
    obtain ⟨d, hd, hpc, hdel⟩ := h
    obtain rfl := hd.eq hq
    have hacc := hop.access hpc hdel ha
    cases e with
    | store w => exact absurd rfl (he w)
    | link =>
      rcases hacc with hatt | ⟨-, hret⟩
      · exact ⟨_, .hopeful hi hatt fun _ => rfl, by omega⟩
      · exact ⟨0, .leaving hi hret, by omega⟩
    | keep =>
      rcases hacc with hatt | ⟨-, hret⟩
      · exact ⟨_, .hopeful hi hatt nofun, by omega⟩
      · exact ⟨0, .leaving hi hret, by omega⟩
    | unlink => exact hacc.elim
  | hopeful hi' h hres =>
    obtain rfl := Option.some.inj (hi.symm.trans hi')
    obtain ⟨d, hd, -, hsucc, -, hacc⟩ := h
    obtain rfl := hd.eq hq
    cases spurious with
    | false =>
      obtain ⟨c'', w, hstore⟩ := hsucc (b && !false) fun hn => by simp [hres hn]
      exact absurd (Prod.mk.inj (Option.some.inj (ha.symm.trans hstore))).2 (he w)
    | true =>
      have hfail := hacc _ _ _ _ (fun _ => rfl) ha
      cases e with
      | store w => exact absurd rfl (he w)
      | link => exact hfail.elim
      | keep | unlink => exact ⟨_, .seeking hi hfail, by simp⟩
  | beaten hi' h hres =>
    obtain rfl := Option.some.inj (hi.symm.trans hi')
    obtain ⟨d, hd, -, -, -, hacc⟩ := h
    obtain rfl := hd.eq hq
    have hfail := hacc _ _ _ _ (fun h => hres (Bool.and_elim_left h)) ha
    cases e with
    | store w => exact absurd rfl (he w)
    | link => exact hfail.elim
    | keep | unlink => exact ⟨_, .seeking hi hfail, by omega⟩
  | leaving hi' h =>
    obtain rfl := Option.some.inj (hi.symm.trans hi')
    obtain ⟨d, hd, hw⟩ := h
    obtain rfl := hd.eq hq
    rw [access_of_leaves hw] at ha
    cases ha

end Running

variable [DecidableEq T] [Fintype T] {s s' : Shared T ι} {t : T}

/-- What all calls together are paid for. -/
def Owing (routine : ι → Option Routine) (op : ι → Operation Word (Option Word))
    (s : Shared T ι) (n : ℕ) : Prop :=
  ∃ g : T → ℕ, (∀ t, Owes routine op (Fintype.card T - 1) s.counter (s.reserved t) (s.call t)
    (g t)) ∧ ∑ t, g t = n

/-- One thread moves; what it does costs each other thread at most `c`. -/
theorem sum_le_of_move {g g' : T → ℕ} {a d : ℕ} (c : ℕ) (ht : g' t + d ≤ g t + a)
    (hoth : ∀ x, x ≠ t → g' x ≤ g x + c) :
    ∑ x, g' x + d ≤ ∑ x, g x + a + c * (Fintype.card T - 1) := by
  have hrest : ∑ x ∈ Finset.univ.erase t, g' x ≤
      ∑ x ∈ Finset.univ.erase t, g x + c * (Fintype.card T - 1) := by
    calc ∑ x ∈ Finset.univ.erase t, g' x
        ≤ ∑ x ∈ Finset.univ.erase t, (g x + c) :=
          Finset.sum_le_sum fun x hx => hoth x (Finset.ne_of_mem_erase hx)
      _ = ∑ x ∈ Finset.univ.erase t, g x + c * (Fintype.card T - 1) := by
          rw [Finset.sum_add_distrib, Finset.sum_const, Finset.card_erase_of_mem
            (Finset.mem_univ t), Finset.card_univ, smul_eq_mul, Nat.mul_comm]
  have hnew := Finset.sum_erase_add _ g' (Finset.mem_univ t)
  have hold := Finset.sum_erase_add _ g (Finset.mem_univ t)
  omega

theorem Owing.move (h : Owing routine op s n) {a d : ℕ}
    (hoth : ∀ x, x ≠ t → s'.counter = s.counter ∧ s'.reserved x = s.reserved x ∧
      s'.call x = s.call x)
    (ht : ∀ o, Owes routine op (Fintype.card T - 1) s.counter (s.reserved t) (s.call t) o →
      ∃ o', Owes routine op (Fintype.card T - 1) s'.counter (s'.reserved t) (s'.call t) o' ∧
        o' + d ≤ o + a) :
    ∃ n', Owing routine op s' n' ∧ n' + d ≤ n + a := by
  obtain ⟨g, hg, rfl⟩ := h
  obtain ⟨o', ho', hle⟩ := ht _ (hg t)
  refine ⟨_, ⟨Function.update g t o', fun x => ?_, rfl⟩, ?_⟩
  · by_cases hx : x = t
    · subst hx
      simpa using ho'
    · obtain ⟨hm, hr, hc⟩ := hoth x hx
      simpa [Function.update_of_ne hx, hm, hr, hc] using hg x
  · have hself : Function.update g t o' t + d ≤ g t + a := by simpa using hle
    have hsum := sum_le_of_move 0 hself fun x hx => by simp [Function.update_of_ne hx]
    simpa using hsum

theorem Owing.store (h : Owing routine op s n) {d : ℕ}
    (hoth : ∀ x, x ≠ t → s'.reserved x = false ∧ s'.call x = s.call x)
    (ht : ∀ o, Owes routine op (Fintype.card T - 1) s.counter (s.reserved t) (s.call t) o →
      2 * (Fintype.card T - 1) + d ≤ o)
    (hdone : Owes routine op (Fintype.card T - 1) s'.counter (s'.reserved t) (s'.call t) 0) :
    ∃ n', Owing routine op s' n' ∧ n' + d ≤ n := by
  obtain ⟨g, hg, rfl⟩ := h
  have hspoil : ∀ x, ∃ o' ≤ g x + 2, x ≠ t → Owes routine op (Fintype.card T - 1) s'.counter
      (s'.reserved x) (s'.call x) o' := by
    intro x
    by_cases hx : x = t
    · exact ⟨0, Nat.zero_le _, fun hne => absurd hx hne⟩
    · obtain ⟨hr, hc⟩ := hoth x hx
      have hlost : s'.reserved x = true → s.reserved x = true ∧ s'.counter = s.counter :=
        fun hb => by simp [hr] at hb
      obtain ⟨o', hle, ho'⟩ := (hg x).disturbed hlost
      exact ⟨o', hle, fun _ => hc ▸ ho'⟩
  choose g' hg' howes using hspoil
  refine ⟨_, ⟨Function.update g' t 0, fun x => ?_, rfl⟩, ?_⟩
  · by_cases hx : x = t
    · subst hx
      simpa using hdone
    · simpa [Function.update_of_ne hx] using howes x hx
  · have hself : Function.update g' t 0 t + (2 * (Fintype.card T - 1) + d) ≤ g t + 0 := by
      simpa using ht _ (hg t)
    have hsum := sum_le_of_move 2 hself fun x hx => by
      simpa [Function.update_of_ne hx] using hg' x
    omega

/-- What an action pays in. -/
def Action.pays (k : ℕ) : Action T ι → ℕ
  | .call .. => 2 * k
  | .exec _ spurious => if spurious then 2 else 0
  | .lose _ => 2
  | .ret _ => 0

theorem Owing.step (hop : ∀ i r, routine i = some r → r.Implements (op i))
    (h : Owing routine op s n) {a : Action T ι} (ht : s.Transition routine a s') :
    ∃ n', Owing routine op s' n' ∧
      n' + (s.touches routine a).toList.length ≤ n + a.pays (Fintype.card T) := by
  have hothers : ∀ {t : T} {q : Call ι}, ∀ x, x ≠ t →
      (s.setCall t q).counter = s.counter ∧ (s.setCall t q).reserved x = s.reserved x ∧
        (s.setCall t q).call x = s.call x :=
    fun x hx => ⟨rfl, rfl, Function.update_of_ne hx _ _⟩
  cases ht with
  | @call t i r regs flags hcall hi =>
    have hpos : 0 < Fintype.card T := Fintype.card_pos_iff.mpr ⟨t⟩
    have hnew : r.Retries ⟨0, none, regs, flags⟩ :=
      ⟨_, .stop ((hop i r hi).quiet rfl), rfl, rfl⟩
    refine h.move (d := 0) hothers fun o _ => ⟨2 * (Fintype.card T - 1) + 2, ?_, ?_⟩
    · simpa [Shared.setCall] using Owes.seeking hi hnew
    · simp only [Action.pays]
      omega
  | @quiet t i r c c' spurious hcall hi hq =>
    have hnone : s.touches routine (.exec t spurious) = none := by
      simp [Shared.touches, hcall, hi, hq]
    rw [hnone]
    refine h.move hothers fun o ho => ⟨o, ?_, Nat.le_add_right _ _⟩
    rw [hcall] at ho
    simpa [Shared.setCall] using ho.quiet hi hq
  | @access t i r c c' e spurious hcall hi hq ha =>
    have hone : s.touches routine (.exec t spurious) = some t := by
      simp [Shared.touches, hcall, hi, hq]
    rw [hone]
    by_cases he : ∃ w, e = .store w
    · obtain ⟨w, rfl⟩ := he
      have hstore : ∀ {o}, Owes routine op (Fintype.card T - 1) s.counter (s.reserved t)
          (s.call t) o → 2 * (Fintype.card T - 1) + 1 ≤ o ∧ ∃ res, r.Returns res c' := by
        intro o ho
        rw [hcall] at ho
        exact ho.store hi (hop i r hi) hq Bool.and_elim_left ha
      obtain ⟨res, hres⟩ : ∃ res, r.Returns res c' := by
        obtain ⟨g, hg, -⟩ := h
        exact (hstore (hg t)).2
      have hdone : Owes routine op (Fintype.card T - 1) w false
          (((s.apply t (.store w)).setCall t (.running i c')).call t) 0 := by
        simpa [Shared.setCall] using Owes.leaving hi hres
      obtain ⟨n', hn', hle⟩ : ∃ n', Owing routine op
          ((s.apply t (.store w)).setCall t (.running i c')) n' ∧ n' + 1 ≤ n :=
        h.store (fun x hx => ⟨rfl, Function.update_of_ne hx _ _⟩) (fun o ho => (hstore ho).1) hdone
      exact ⟨n', hn', hle.trans (Nat.le_add_right _ _)⟩
    · have hcounter : (s.apply t e).counter = s.counter := by
        cases e with
        | store w => exact absurd ⟨w, rfl⟩ he
        | keep | link | unlink => rfl
      have hreserved : ∀ x, (s.apply t e).reserved x =
          if x = t then e.reserves (s.reserved t) else s.reserved x := by
        intro x
        cases e with
        | store w => exact absurd ⟨w, rfl⟩ he
        | keep => by_cases hx : x = t <;> simp [Shared.apply, Effect.reserves, hx]
        | link | unlink => by_cases hx : x = t <;> simp [Shared.apply, Effect.reserves, hx]
      refine h.move (t := t) (fun x hx => ⟨hcounter, ?_, ?_⟩) fun o ho => ?_
      · exact (hreserved x).trans (if_neg hx)
      · exact (Function.update_of_ne hx _ _).trans (congrFun (Shared.call_apply s t e) x)
      · rw [hcall] at ho
        obtain ⟨n', hn', hle⟩ := ho.tried hi (hop i r hi) hq ha fun w hw => he ⟨w, hw⟩
        refine ⟨n', ?_, hle⟩
        have hself : (s.apply t e).reserved t = e.reserves (s.reserved t) :=
          (hreserved t).trans (if_pos rfl)
        simpa [Shared.setCall, hcounter, hself] using hn'
  | @lose t =>
    refine h.move (d := 0) (fun x hx => ⟨rfl, Function.update_of_ne hx _ _, rfl⟩) fun o ho => ?_
    have hlost : false = true → s.reserved t = true ∧ s.counter = s.counter := by
      simp
    obtain ⟨o', hle, ho'⟩ := ho.disturbed hlost
    exact ⟨o', by simpa using ho', hle⟩
  | @ret t i r c w hcall hi hl =>
    exact h.move (d := 0) hothers fun o _ =>
      ⟨0, by simpa [Shared.setCall] using Owes.idle, Nat.zero_le _⟩

end Owing

section Alone

variable {T : Type u} {ι : Type v} [DecidableEq T] {routine : ι → Option Routine}
  {op : ι → Operation Word (Option Word)} {v : Word} {s s' : Shared T ι} {t : T} {i : ι}
  {r : Routine} {c d : Cpu}

/-- The thread gets to the end of its call by its own instructions alone. -/
def Finishes (routine : ι → Option Routine) (v : Word) (s : Shared T ι) (t : T) : Prop :=
  ∃ n s', (machine T routine v).Run s (List.replicate n (.exec t false)) s' ∧
    (s'.step routine (.ret t)).isSome

theorem Finishes.of_step (h : s.step routine (.exec t false) = some s')
    (hs' : Finishes routine v s' t) : Finishes routine v s t := by
  obtain ⟨n, s'', hrun, hret⟩ := hs'
  have hfirst : (machine T routine v).Run s [.exec t false] s' := .single h
  exact ⟨n + 1, s'', hfirst.append hrun, hret⟩

theorem step_quiet {c' : Cpu} (hcall : s.call t = .running i c) (hi : routine i = some r)
    (hq : r.quiet c = some c') :
    s.step routine (.exec t false) = some (s.setCall t (.running i c')) := by
  simp [Shared.step, Shared.execute, hcall, hi, hq]

theorem step_access {c' : Cpu} {e : Effect} (hcall : s.call t = .running i c)
    (hi : routine i = some r) (hq : r.quiet c = none)
    (ha : r.access s.counter (s.reserved t) c = some (c', e)) :
    s.step routine (.exec t false) = some ((s.apply t e).setCall t (.running i c')) := by
  simp [Shared.step, Shared.execute, hcall, hi, hq, ha]

/-- On the way to the next access nothing can happen to a thread. -/
theorem Finishes.of_settles (hd : r.Settles c d) (hcall : s.call t = .running i c)
    (hi : routine i = some r)
    (h : ∀ s' : Shared T ι, s'.call t = .running i d → s'.counter = s.counter →
      s'.reserved = s.reserved → Finishes routine v s' t) : Finishes routine v s t := by
  induction hd generalizing s with
  | stop => exact h s hcall rfl rfl
  | @step c c' d hq _ ih =>
    have hself : (s.setCall t (.running i c')).call t = .running i c' := Function.update_self ..
    exact .of_step (step_quiet hcall hi hq) (ih hself h)

theorem Settles.quiet_eq (h : r.Settles c d) : r.quiet d = none := by
  induction h with
  | stop h => exact h
  | step _ _ ih => exact ih

theorem Finishes.of_returns {w : Option Word} (h : r.Returns w c)
    (hcall : s.call t = .running i c) (hi : routine i = some r) : Finishes routine v s t := by
  obtain ⟨d, hd, hw⟩ := h
  refine .of_settles hd hcall hi fun s' hcall' _ _ => ⟨0, s', .nil _, ?_⟩
  simp [Shared.step, hcall', hi, hw]

theorem call_after (s : Shared T ι) (t : T) (e : Effect) (i : ι) (c : Cpu) :
    ((s.apply t e).setCall t (.running i c)).call t = .running i c :=
  Function.update_self ..

theorem Finishes.of_hopeful {needs : Bool} (h : r.Attempts (op i) needs s.counter c)
    (hres : needs = true → s.reserved t = true) (hcall : s.call t = .running i c)
    (hi : routine i = some r) : Finishes routine v s t := by
  obtain ⟨d, hd, -, hsucc, -, hacc⟩ := h
  refine .of_settles hd hcall hi fun s' hcall' hm hr => ?_
  obtain ⟨c', w, ha⟩ := hsucc (s'.reserved t) fun hn => by rw [hr, hres hn]
  rw [← hm] at ha hacc
  obtain ⟨-, hret⟩ := hacc _ _ _ _ (fun _ => rfl) ha
  exact .of_step (step_access hcall' hi (Settles.quiet_eq hd) ha)
    (.of_returns hret (call_after s' t _ i c') hi)

theorem Finishes.of_seeking (h : r.Retries c) (hop : r.Implements (op i))
    (hcall : s.call t = .running i c) (hi : routine i = some r) : Finishes routine v s t := by
  obtain ⟨d, hd, hpc, hdel⟩ := h
  refine .of_settles hd hcall hi fun s' hcall' _ _ => ?_
  have henabled : (r.access s'.counter (s'.reserved t) d).isSome := hop.enabled hpc
  obtain ⟨⟨c', e⟩, ha⟩ := Option.isSome_iff_exists.mp henabled
  have hacc := hop.access hpc hdel ha
  refine .of_step (step_access hcall' hi (Settles.quiet_eq hd) ha) ?_
  cases e with
  | store w => exact .of_returns hacc.2 (call_after s' t _ i c') hi
  | link =>
    rcases hacc with hatt | ⟨-, hret⟩
    · exact .of_hopeful hatt (fun _ => Function.update_self ..) (call_after s' t _ i c') hi
    · exact .of_returns hret (call_after s' t _ i c') hi
  | keep =>
    rcases hacc with hatt | ⟨-, hret⟩
    · exact .of_hopeful hatt nofun (call_after s' t _ i c') hi
    · exact .of_returns hret (call_after s' t _ i c') hi
  | unlink => exact hacc.elim

/-- At most one try fails: the one that was spoilt before. -/
theorem Owes.finishes {k n : ℕ} {q : Call ι}
    (h : Owes routine op k s.counter (s.reserved t) q n)
    (hop : ∀ i r, routine i = some r → r.Implements (op i)) (hcall : s.call t = q)
    (hq : q ≠ .idle) : Finishes routine v s t := by
  cases h with
  | idle => exact absurd rfl hq
  | seeking hi h => exact .of_seeking h (hop _ _ hi) hcall hi
  | hopeful hi h hres => exact .of_hopeful h hres hcall hi
  | leaving hi h => exact .of_returns h hcall hi
  | @beaten i r c needs v' hi h hres =>
    obtain ⟨d, hd, -, -, hsome, hacc⟩ := h
    refine .of_settles hd hcall hi fun s' hcall' hm hr => ?_
    obtain ⟨⟨c', e⟩, ha⟩ := Option.isSome_iff_exists.mp (hsome s'.counter (s'.reserved t))
    have hafter := hacc _ _ _ _ (fun hl => hm.trans (hres (hr ▸ hl))) ha
    refine .of_step (step_access hcall' hi (Settles.quiet_eq hd) ha) ?_
    cases e with
    | store w => exact .of_returns hafter.2 (call_after s' t _ i c') hi
    | link => exact hafter.elim
    | keep | unlink => exact .of_seeking hafter (hop _ _ hi) (call_after s' t _ i c') hi

end Alone

theorem price_pays {T : Type u} {ι : Type v} (k : ℕ) (tr : List (Action T ι)) :
    Machine.price (Action.pays k) tr =
      2 * k * tr.countP Action.calls + 2 * tr.countP Action.disturbs := by
  induction tr with
  | nil => rfl
  | cons a tr ih =>
    have hcons : Machine.price (Action.pays k) (a :: tr) =
        a.pays k + Machine.price (Action.pays k) tr := by simp [Machine.price]
    rw [hcons, ih, List.countP_cons, List.countP_cons]
    cases a with
    | call | lose | ret =>
      simp only [Action.pays, Action.calls, Action.disturbs, Nat.mul_add, if_true, if_false,
        Bool.false_eq_true, Nat.mul_one]
      omega
    | exec t spurious =>
      cases spurious <;>
        simp only [Action.pays, Action.calls, Action.disturbs, Nat.mul_add, if_true, if_false,
          Bool.false_eq_true, Nat.mul_one] <;> omega

variable {T : Type u} [DecidableEq T] [Fintype T] {v : Word} {s₀ s : Shared T Site}
  {tr : List (Action T Site)}

/-- The number of accesses to the counter is bounded by the calls and the losses of
reservations, whatever the interleaving, and a thread that is let run alone ends its call. -/
theorem Arch.lock_free (a : Arch) (hs : Shared.Start v s₀)
    (h : (machine T a.routine v).Run s₀ tr s) :
    ((machine T a.routine v).record (Shared.touches a.routine) s₀ tr).length ≤
        2 * Fintype.card T * tr.countP Action.calls + 2 * tr.countP Action.disturbs ∧
      ∀ t, s.call t ≠ .idle → Finishes a.routine v s t := by
  have hstart : Owing a.routine a.operation s₀ 0 :=
    ⟨fun _ => 0, fun t => by rw [hs.call t]; exact .idle, Finset.sum_const_zero⟩
  obtain ⟨m, ⟨g, hg, -⟩, hle⟩ := h.amortized (g := Shared.touches a.routine)
    (F := Owing a.routine a.operation) (b := Action.pays (Fintype.card T)) hstart
    fun ho hstep => ho.step a.implements (Shared.step_cases hstep)
  rw [price_pays] at hle
  exact ⟨by omega, fun t ht => (hg t).finishes a.implements rfl ht⟩

theorem Arch.lock_free_contention :
    ∃ s, (machine Bool Arch.powerpc.routine 7).Run (resting 7) (contention.take 10) s ∧
      ((machine Bool Arch.powerpc.routine 7).record (Shared.touches Arch.powerpc.routine)
          (resting 7) (contention.take 10)).length ≤
        2 * Fintype.card Bool * (contention.take 10).countP Action.calls +
          2 * (contention.take 10).countP Action.disturbs ∧
      ∀ t, s.call t ≠ .idle → Finishes Arch.powerpc.routine 7 s t := by
  have hrun := Machine.Run.of_isSome (M := machine Bool Arch.powerpc.routine 7) (s := resting 7)
    (contention.take 10) (by decide)
  exact ⟨_, hrun, Arch.lock_free .powerpc ⟨rfl, fun _ => rfl⟩ hrun⟩

end EpollThreads.Atomic
