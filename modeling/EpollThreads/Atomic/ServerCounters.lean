import EpollThreads.Atomic.Header
import EpollThreads.Dispatch.ClientLimit
import EpollThreads.Shutdown.Teardown

/-!
# The server with its counters in memory

`m_ActiveConns` is an `atomic_t`: the listener runs `atomic_inc` on it and the
worker `atomic_dec`, one instruction at a time and with all the other threads in
between, and `GetActiveConns` is a plain load. The server machine, in which each
of these is one step on an unbounded integer, shows what such a server does.
-/

namespace EpollThreads.Atomic

open Foundations Dispatch Dispatch.Server Shutdown

variable {n : ℕ}

/-- What `server` says of `activeConns` is not looked at. -/
structure CountedServer (n : ℕ) where
  server : Server n
  counters : Fin n → Shared (Thread n) Site

inductive CountedAct (n : ℕ)
  | server (a : Dispatch.Action n)
  | counter (w : Fin n) (act : Action (Thread n) Site)

def Call.isIdle {ι : Type} : Call ι → Bool
  | .idle => true
  | .running _ _ => false

/-- The call that a thread is about to make on the counter of worker `w`. -/
def wants (s : Server n) (w : Fin n) : Thread n → Option Site
  | .main => none
  | .listener =>
    match s.listener with
    | .assigning _ (.increment target) => if target = w then some Fn.inc.site else none
    | _ => none
  | .worker w' =>
    match (s.workers w').pc with
    | .event _ .dec _ => if w' = w then some Fn.dec.site else none
    | _ => none

/-- The step of the server machine that a call on a counter is. -/
def countedAs : Thread n → Dispatch.Action n
  | .main => .shutdown
  | .listener => .assign .increment
  | .worker w => .handle w .dec

/-- The steps that are calls here. -/
def counted : Dispatch.Action n → Bool
  | .assign .increment => true
  | .handle _ .dec => true
  | _ => false

namespace CountedServer

/-- The server as its threads find it. -/
def view (s : CountedServer n) : Server n :=
  { s.server with
    workers := fun w =>
      { s.server.workers w with activeConns := (s.counters w).counter.toInt } }

/-- The thread is in no call. -/
def Outside (s : CountedServer n) (t : Thread n) : Prop := ∀ w, ((s.counters w).call t).isIdle

instance (s : CountedServer n) (t : Thread n) : Decidable (s.Outside t) :=
  inferInstanceAs (Decidable (∀ w, ((s.counters w).call t).isIdle))

/-- The thread whose instruction stores to the counter. -/
def stores (a : Arch) (k : Shared (Thread n) Site) : Action (Thread n) Site → Option (Thread n)
  | .exec t spurious =>
    match k.call t with
    | .idle => none
    | .running i c =>
      match (a.routine i).bind fun r => r.access k.counter (k.reserved t && !spurious) c with
      | some (_, .store _) => some t
      | _ => none
  | _ => none

def allows (s : CountedServer n) (w : Fin n) : Action (Thread n) Site → Prop
  | .call t i _ _ => s.Outside t ∧ wants s.server w t = some i
  | _ => True

instance (s : CountedServer n) (w : Fin n) (act : Action (Thread n) Site) :
    Decidable (s.allows w act) :=
  match act with
  | .call t i _ _ => inferInstanceAs (Decidable (s.Outside t ∧ wants s.server w t = some i))
  | .exec _ _ | .lose _ | .ret _ => isTrue trivial

/-- The thread of a step of the server is in no call. A call moves the server on when it stores:
what only its own thread looks at may as well change then as when it returns. -/
def step (a : Arch) (maxclients : ℤ) (s : CountedServer n) :
    CountedAct n → Option (CountedServer n)
  | .server act =>
    if counted act = false ∧ ∀ t ∈ actor act, s.Outside t then
      (s.view.step maxclients act).map fun u => { s with server := u }
    else none
  | .counter w act =>
    if s.allows w act then
      ((s.counters w).step a.routine act).map fun k =>
        { server :=
            match stores a (s.counters w) act with
            | some t => (s.view.step maxclients (countedAs t)).getD s.server
            | none => s.server
          counters := Function.update s.counters w k }
    else none

structure Start (s : CountedServer n) : Prop where
  server : s.server.Start
  counters : ∀ w, (s.counters w).Start 0

/-- The step of the server machine that an action stands for. -/
def performs (a : Arch) (s : CountedServer n) : CountedAct n → Option (Dispatch.Action n)
  | .server act => some act
  | .counter w act => (stores a (s.counters w) act).map countedAs

end CountedServer

def countedMachine (a : Arch) (n : ℕ) (maxclients : ℤ) :
    Machine (CountedServer n) (CountedAct n) where
  start := CountedServer.Start
  step := CountedServer.step a maxclients

namespace CountedServer

variable {a : Arch} {maxclients : ℤ} {s s' : CountedServer n} {t : Thread n} {w : Fin n}

@[simp] theorem view_listener : s.view.listener = s.server.listener := rfl

@[simp] theorem view_pc : (s.view.workers w).pc = (s.server.workers w).pc := rfl

theorem wants_view : wants s.view w t = wants s.server w t := by
  cases t <;> rfl

/-- What a thread wants changes only by its own steps. -/
theorem wants_of_transition {u v : Server n} {act : Dispatch.Action n}
    (ht : u.Transition maxclients act v) (hact : actor act ≠ some t) :
    wants v w t = wants u w t := by
  cases t with
  | main => rfl
  | listener =>
    have hsame := (listener_of_transition ht).resolve_left hact
    simp only [wants, hsame]
  | worker w' =>
    have hsame := (pc_of_transition ht w').resolve_left hact
    simp only [wants, hsame]

theorem wants_cases {u : Server n} {i : Site} (h : wants u w t = some i) :
    (t = .listener ∧ i = Fn.inc.site ∧ ∃ sockfd, u.listener = .assigning sockfd (.increment w)) ∨
      (t = .worker w ∧ i = Fn.dec.site ∧ ∃ ev rest, (u.workers w).pc = .event ev .dec rest) := by
  cases t with
  | main => cases h
  | listener =>
    simp only [wants] at h
    split at h
    · next sockfd target hl =>
      split_ifs at h with ht
      subst ht
      exact Or.inl ⟨rfl, (Option.some.inj h).symm, sockfd, hl⟩
    · cases h
  | worker w' =>
    simp only [wants] at h
    split at h
    · next ev rest hpc =>
      split_ifs at h with ht
      subst ht
      exact Or.inr ⟨rfl, (Option.some.inj h).symm, ev, rest, hpc⟩
    · cases h

theorem wants_unique {u : Server n} {w' : Fin n} {i j : Site} (h : wants u w t = some i)
    (h' : wants u w' t = some j) : w = w' := by
  rcases wants_cases h with ⟨rfl, -, sockfd, hl⟩ | ⟨rfl, -, -⟩
  · rcases wants_cases h' with ⟨-, -, sockfd', hl'⟩ | ⟨ht, -⟩
    · rw [hl] at hl'
      simp only [ListenerPc.assigning.injEq, AssignPc.increment.injEq] at hl'
      exact Fin.ext hl'.2
    · cases ht
  · rcases wants_cases h' with ⟨ht, -⟩ | ⟨ht, -⟩
    · cases ht
    · exact Thread.worker.inj ht

theorem view_eq (h : ∀ w, (s.server.workers w).activeConns = (s.counters w).counter.toInt) :
    s.view = s.server := by
  have hworkers : (fun w => { s.server.workers w with
      activeConns := (s.counters w).counter.toInt }) = s.server.workers := by
    funext w
    rw [← h w]
  unfold view
  rw [hworkers]

theorem view_update {k : Shared (Thread n) Site} (hk : k.counter = (s.counters w).counter) :
    (CountedServer.mk s.server (Function.update s.counters w k)).view = s.view := by
  have hcounter : ∀ w', (Function.update s.counters w k w').counter =
      (s.counters w').counter := by
    intro w'
    by_cases hw : w' = w
    · subst hw
      simpa using hk
    · rw [Function.update_of_ne hw]
  simp only [view, hcounter]

theorem counter_inc (m : Word) (h : m.toInt + 1 < 2 ^ 31) :
    ((a.operation Fn.inc.site).update m).toInt = m.toInt + 1 := by
  change (m + 1).toInt = m.toInt + 1
  have hlt := m.isLt
  rw [BitVec.toInt_eq_toNat_cond] at h ⊢
  rw [BitVec.toInt_eq_toNat_cond, BitVec.toNat_add, show (1 : Word).toNat = 1 from rfl]
  split at h <;> split <;> omega

theorem counter_dec (m : Word) (h : -2 ^ 31 ≤ m.toInt - 1) :
    ((a.operation Fn.dec.site).update m).toInt = m.toInt - 1 := by
  change (m - 1).toInt = m.toInt - 1
  have hlt := m.isLt
  rw [BitVec.toInt_eq_toNat_cond] at h ⊢
  rw [BitVec.toInt_eq_toNat_cond, BitVec.toNat_sub, show (1 : Word).toNat = 1 from rfl]
  split at h <;> split <;> omega

/-- Every counter stands for an atomic one, and a call that has not taken effect is one that the
server still has to make. -/
def Sound (a : Arch) (s : CountedServer n) : Prop :=
  ∀ w, ∃ o : AtomicObject.State (Thread n) Site Word (Option Word),
    Represents a.routine a.operation (s.counters w) o ∧
      ∀ t i, o.phase t = .called i → wants s.server w t = some i

theorem Sound.update (h : Sound a s) {u : Server n} {k : Shared (Thread n) Site}
    {o : AtomicObject.State (Thread n) Site Word (Option Word)}
    (hk : Represents a.routine a.operation k o)
    (hw : ∀ t i, o.phase t = .called i → wants u w t = some i)
    (hother : ∀ w', w' ≠ w → ∀ t i, wants s.server w' t = some i → wants u w' t = some i) :
    Sound a ⟨u, Function.update s.counters w k⟩ := by
  intro w'
  by_cases hw' : w' = w
  · subst hw'
    exact ⟨o, by simpa using hk, hw⟩
  · obtain ⟨o', ho', hcalled⟩ := h w'
    refine ⟨o', by simpa [Function.update_of_ne hw'] using ho', fun t i hp => ?_⟩
    exact hother w' hw' t i (hcalled t i hp)

theorem Sound.server (h : Sound a s) {act : Dispatch.Action n} {u : Server n}
    (hout : ∀ t ∈ actor act, s.Outside t) (ht : s.view.Transition maxclients act u) :
    Sound a { s with server := u } := by
  intro w
  obtain ⟨o, ho, hcalled⟩ := h w
  refine ⟨o, ho, fun t i hp => ?_⟩
  have hact : actor act ≠ some t := by
    intro hact
    have hidle := hout t hact w
    have hcall : (s.counters w).call t = .idle := by
      cases hc : (s.counters w).call t with
      | idle => rfl
      | running => simp [hc, Call.isIdle] at hidle
    rw [phase_of_idle (ho.call t) hcall] at hp
    cases hp
  rw [wants_of_transition ht hact, wants_view]
  exact hcalled t i hp

theorem view_server {act : Dispatch.Action n} {u : Server n} (hact : counted act = false)
    (ht : s.view.Transition maxclients act u) :
    (CountedServer.mk u s.counters).view = u := by
  have hcounts : u.counts = s.view.counts := by
    apply counts_eq ht
    · rintro w rfl
      cases hact
    · rintro rfl
      cases hact
  exact view_eq fun w => congrFun hcounts w

theorem counts_setWorker (u : Server n) (w : Fin n) (x : Worker) :
    (u.setWorker w x).counts = Function.update u.counts w x.activeConns := by
  funext w'
  by_cases hw : w' = w
  · subst hw; simp [counts]
  · simp [counts, hw]

/-- The store of a call is the step of the server machine. -/
theorem view_store {i : Site} (hwants : wants s.server w t = some i)
    (hlow : -1 ≤ (s.counters w).counter.toInt)
    (hhigh : t = .listener → (s.counters w).counter.toInt + 1 < 2 ^ 31)
    {k : Shared (Thread n) Site}
    (hk : k.counter = (a.operation i).update (s.counters w).counter) :
    ∃ u, s.view.step maxclients (countedAs t) = some u ∧
      (CountedServer.mk u (Function.update s.counters w k)).view = u := by
  have hview : ∀ {u : Server n}, u.counts =
      Function.update s.view.counts w k.counter.toInt →
      (CountedServer.mk u (Function.update s.counters w k)).view = u := by
    intro u hu
    apply view_eq
    intro w'
    change u.counts w' = (Function.update s.counters w k w').counter.toInt
    rw [hu]
    by_cases hw : w' = w
    · subst hw; simp
    · rw [Function.update_of_ne hw, Function.update_of_ne hw]
      rfl
  have hcount : s.view.counts w = (s.counters w).counter.toInt := rfl
  rcases wants_cases hwants with ⟨rfl, rfl, sockfd, hl⟩ | ⟨rfl, rfl, ev, rest, hpc⟩
  · have hstep : (s.view.step maxclients (countedAs .listener)).isSome := by
      simp [countedAs, Server.step, assignStep, hl, AssignPc.step, assignEffect]
    obtain ⟨u, hu⟩ := Option.isSome_iff_exists.mp hstep
    refine ⟨u, hu, hview ?_⟩
    rw [hk, counter_inc _ (hhigh rfl)]
    cases Server.step_cases hu with
    | @increment sockfd' w' hl' =>
      have hsame := hl.symm.trans hl'
      simp only [ListenerPc.assigning.injEq, AssignPc.increment.injEq] at hsame
      obtain rfl : w = w' := Fin.ext hsame.2
      exact counts_setWorker s.view w (s.view.workers w).increment
  · have hstep : (s.view.step maxclients (countedAs (.worker w))).isSome := by
      simp [countedAs, Server.step, handleStep, hpc, Events.Stage.advance, handleEffect]
    obtain ⟨u, hu⟩ := Option.isSome_iff_exists.mp hstep
    refine ⟨u, hu, hview ?_⟩
    rw [hk, counter_dec _ (by omega)]
    cases Server.step_cases hu with
    | quiet _ hq => exact hq.elim
    | dec => exact counts_setWorker s.view w _

/-- What is known of the counters of the server machine. -/
def InBounds (s : CountedServer n) : Prop :=
  ∀ w, -1 ≤ (s.counters w).counter.toInt ∧ (s.server.listener.adding = some (w : ℕ) →
    (s.counters w).counter.toInt + 1 < 2 ^ 31)

theorem stores_access {k : Shared (Thread n) Site} {i : Site} {r : Routine} {c c' : Cpu}
    {e : Effect} {spurious : Bool} (hcall : k.call t = .running i c) (hi : a.routine i = some r)
    (ha : r.access k.counter (k.reserved t && !spurious) c = some (c', e)) :
    (∃ v, e = .store v) ∧ stores a k (.exec t spurious) = some t ∨
      (∀ v, e ≠ .store v) ∧ stores a k (.exec t spurious) = none := by
  simp only [stores, hcall, hi, Option.bind_some, ha]
  cases e with
  | store v => exact Or.inl ⟨⟨v, rfl⟩, rfl⟩
  | keep | link | unlink => exact Or.inr ⟨nofun, rfl⟩

theorem stores_quiet {k : Shared (Thread n) Site} {i : Site} {r : Routine} {c c' : Cpu}
    {spurious : Bool} (hcall : k.call t = .running i c) (hi : a.routine i = some r)
    (hq : r.quiet c = some c') : stores a k (.exec t spurious) = none := by
  have ha : r.access k.counter (k.reserved t && !spurious) c = none :=
    Routine.access_of_quiet hq _ _
  simp only [stores, hcall, hi, Option.bind_some, ha]

theorem adding_of_wants {u : Server n} {i : Site} (h : wants u w .listener = some i) :
    u.listener.adding = some (w : ℕ) := by
  rcases wants_cases h with ⟨-, -, sockfd, hl⟩ | ⟨ht, -⟩
  · rw [hl]; rfl
  · cases ht

theorem actor_countedAs {u : Server n} {x : Thread n} {i : Site} (h : wants u w t = some i)
    (hx : x ≠ t) : actor (countedAs t) ≠ some x := by
  rcases wants_cases h with ⟨rfl, -⟩ | ⟨rfl, -⟩ <;>
    exact fun hact => hx (Option.some.inj hact).symm

/-- An operation that always changes the counter takes effect when it stores. -/
theorem update_ne {u : Server n} {i : Site} (h : wants u w t = some i) (m : Word) :
    (a.operation i).update m ≠ m := by
  intro hm
  rcases wants_cases h with ⟨-, rfl, -⟩ | ⟨-, rfl, -⟩
  · have hone : m + 1 = m + 0 := hm.trans (BitVec.add_zero m).symm
    exact absurd ((BitVec.add_right_inj m).mp hone) (by decide)
  · have hone : m + -1 = m + 0 := ((BitVec.sub_eq_add_neg m 1).symm.trans hm).trans
      (BitVec.add_zero m).symm
    exact absurd ((BitVec.add_right_inj m).mp hone) (by decide)

theorem counter_apply {k : Shared (Thread n) Site} {e : Effect} (h : ∀ v, e ≠ .store v) :
    (k.apply t e).counter = k.counter := by
  cases e with
  | store v => exact (h v rfl).elim
  | keep | link | unlink => rfl

theorem step_view {act : CountedAct n} (h : Sound a s) (hb : s.InBounds)
    (hstep : s.step a maxclients act = some s') :
    Sound a s' ∧ match s.performs a act with
      | some b => s.view.step maxclients b = some s'.view
      | none => s'.view = s.view := by
  cases act with
  | server act =>
    simp only [step, Option.ite_none_right_eq_some, Option.map_eq_some_iff] at hstep
    obtain ⟨⟨hact, hout⟩, u, hu, rfl⟩ := hstep
    have ht := Server.step_cases hu
    refine ⟨h.server hout ht, ?_⟩
    rw [show (CountedServer.mk u s.counters).view = u from view_server hact ht]
    exact hu
  | counter w act =>
    simp only [step, Option.ite_none_right_eq_some, Option.map_eq_some_iff] at hstep
    obtain ⟨hallows, k, hk, rfl⟩ := hstep
    obtain ⟨o, ho, hcalled⟩ := h w
    have hkeep : ∀ w', w' ≠ w → ∀ t i, wants s.server w' t = some i →
        wants s.server w' t = some i := fun _ _ _ _ => id
    simp only [performs]
    cases Shared.step_cases hk with
    | @call t i r regs flags hcall hi =>
      have hnone : stores a (s.counters w) (.call t i regs flags) = none := rfl
      rw [hnone]
      refine ⟨h.update (ho.begin hi (a.implements i r hi) regs flags) ?_ hkeep, view_update rfl⟩
      intro x j hp
      by_cases hx : x = t
      · subst hx
        obtain rfl : i = j := by simpa [AtomicObject.State.setPhase] using hp
        exact hallows.2
      · exact hcalled x j (by simpa [AtomicObject.State.setPhase, hx] using hp)
    | @quiet t i r c c' spurious hcall hi hq =>
      rw [stores_quiet hcall hi hq]
      exact ⟨h.update (ho.quiet hcall hi hq) hcalled hkeep, view_update rfl⟩
    | @access t i r c c' e spurious hcall hi hq ha =>
      rcases ho.access hcall hi (a.implements i r hi) hq ha with ⟨hr, hno⟩ | ⟨hp, hval, hr⟩
      · have hnone := (stores_access hcall hi ha).resolve_left fun hs => hno _ hs.1.choose_spec
        rw [hnone.2]
        exact ⟨h.update hr hcalled hkeep, view_update (counter_apply hno)⟩
      · have hwants := hcalled t i hp
        rcases stores_access hcall hi ha with ⟨-, hsome⟩ | ⟨hno, -⟩
        · rw [hsome]
          have hhigh : t = .listener → (s.counters w).counter.toInt + 1 < 2 ^ 31 := by
            rintro rfl
            exact (hb w).2 (adding_of_wants hwants)
          obtain ⟨u, hu, hview⟩ : ∃ u, s.view.step maxclients (countedAs t) = some u ∧
              (CountedServer.mk u (Function.update s.counters w
                (((s.counters w).apply t e).setCall t (.running i c')))).view = u :=
            view_store hwants (hb w).1 hhigh hval.symm
          have ht := Server.step_cases hu
          simp only [Option.map_some, hu, Option.getD_some]
          refine ⟨h.update hr ?_ ?_, congrArg some hview.symm⟩
          · intro x j hx
            have hne : x ≠ t := by
              rintro rfl
              simp [AtomicObject.State.setPhase] at hx
            rw [wants_of_transition ht (actor_countedAs hwants hne), wants_view]
            exact hcalled x j (by simpa [AtomicObject.State.setPhase, hne] using hx)
          · intro w' hw' x j hx
            have hne : x ≠ t := by
              rintro rfl
              exact hw' (wants_unique hx hwants)
            rwa [wants_of_transition ht (actor_countedAs hwants hne), wants_view]
        · rw [counter_apply hno] at hval
          exact (update_ne hwants _ hval).elim
    | @lose t =>
      have hnone : stores a (s.counters w) (.lose t) = none := rfl
      rw [hnone]
      exact ⟨h.update ho.lose hcalled hkeep, view_update rfl⟩
    | @ret t i r c v hcall hi hl =>
      have hnone : stores a (s.counters w) (.ret t) = none := rfl
      rw [hnone]
      refine ⟨h.update ho.ret ?_ hkeep, view_update rfl⟩
      intro x j hp
      by_cases hx : x = t
      · subst hx
        simp [AtomicObject.State.setPhase] at hp
      · exact hcalled x j (by simpa [AtomicObject.State.setPhase, hx] using hp)

/-- The bounds are those of the server machine. The counter is one above what it counts while a
decrement is due, so the largest `int` is one client too many. -/
theorem InBounds.of_reaches (hm : 0 ≤ maxclients) (hmax : maxclients < 2 ^ 31 - 1)
    {tr : List (Dispatch.Action n)} (h : (serverMachine n maxclients).Reaches tr s.view) :
    s.InBounds := by
  intro w
  have hcount : (s.view.workers w).activeConns = (s.counters w).counter.toInt := rfl
  have heq := activeConns_eq h w
  have hle := registeredTotal_le_maxclients hm h
  have hone : ((s.view.workers w).registered.card : ℤ) ≤ s.view.registeredTotal :=
    Finset.single_le_sum (f := fun w => ((s.view.workers w).registered.card : ℤ))
      (fun _ _ => Int.natCast_nonneg _) (Finset.mem_univ w)
  refine ⟨hcount ▸ (activeConns_neg_iff h w).1, fun hadd => ?_⟩
  have hinc : s.view.pendingIncrement w = 1 := if_pos hadd
  obtain ⟨-, hdec⟩ := (s.view.workers w).pendingDecrement_range
  omega

theorem Sound.of_start (h : s.Start) : Sound a s := by
  intro w
  refine ⟨⟨0, fun _ => .idle⟩, ⟨(h.counters w).counter.symm, fun t => ?_⟩, nofun⟩
  rw [(h.counters w).call t]
  exact .idle

theorem start_view (h : s.Start) : s.view.Start := by
  refine ⟨h.server.running, h.server.listener, fun w => ?_, h.server.files, h.server.accepted,
    h.server.closes⟩
  obtain ⟨-, hreg, hret, hpc⟩ := h.server.worker w
  refine ⟨?_, hreg, hret, hpc⟩
  change (s.counters w).counter.toInt = 0
  rw [(h.counters w).counter]
  rfl

/-- A server whose counters are read and written one instruction at a time, on any processor of
the header and in any interleaving, takes the steps of the server machine. -/
theorem refines_server (a : Arch) (hm : 0 ≤ maxclients) (hmax : maxclients < 2 ^ 31 - 1)
    {s₀ : CountedServer n} (hs : s₀.Start) {tr : List (CountedAct n)}
    (h : (countedMachine a n maxclients).Run s₀ tr s) :
    s₀.view.Start ∧ (serverMachine n maxclients).Run s₀.view
      ((countedMachine a n maxclients).record (performs a) s₀ tr) s.view := by
  refine ⟨start_view hs, ?_⟩
  have hall : Sound a s ∧ (serverMachine n maxclients).Run s₀.view
      ((countedMachine a n maxclients).record (performs a) s₀ tr) s.view := by
    induction h with
    | nil => exact ⟨Sound.of_start hs, .nil _⟩
    | @snoc t u tr act hrun hstep ih =>
      obtain ⟨hsound, hserver⟩ := ih
      have hb := InBounds.of_reaches hm hmax ⟨_, start_view hs, hserver⟩
      obtain ⟨hsound', hview⟩ := step_view hsound hb hstep
      refine ⟨hsound', ?_⟩
      rw [hrun.record_snoc]
      split at hview
      · next b hb => rw [hb]; exact hserver.snoc hview
      · next hb => rw [hb, hview]; simpa using hserver
  exact hall.2

/-- A pool of two that has been started. -/
def started : CountedServer 2 where
  server := initial 2
  counters _ := ⟨0, fun _ => false, fun _ => .idle⟩

theorem start_started : started.Start := ⟨start_initial, fun _ => ⟨rfl, fun _ => rfl⟩⟩

/-- The listener loses its reservation on the counter of worker 1 and goes round the loop. -/
def interrupted : List (CountedAct 2) :=
  (connect 7).dropLast.map .server ++
    [.counter (Fin.last 1) (.call .listener Fn.inc.site (fun _ => 0) ⟨false, false⟩),
      .counter (Fin.last 1) (.exec .listener false), .counter (Fin.last 1) (.lose .listener)] ++
    List.replicate 7 (.counter (Fin.last 1) (.exec .listener false)) ++
    [.counter (Fin.last 1) (.ret .listener)]

theorem refines_server_interrupted :
    ∃ s, (countedMachine .powerpc 2 10).Run started interrupted s ∧
      started.view.Start ∧ (serverMachine 2 10).Run started.view
        ((countedMachine .powerpc 2 10).record (performs .powerpc) started interrupted) s.view := by
  have hrun := Machine.Run.of_isSome (M := countedMachine .powerpc 2 10) (s := started)
    interrupted (by decide)
  exact ⟨_, hrun, refines_server .powerpc (by decide) (by decide) start_started hrun⟩

end CountedServer
end EpollThreads.Atomic
