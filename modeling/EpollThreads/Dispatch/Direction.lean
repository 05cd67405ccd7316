import EpollThreads.Dispatch.Delivery
import EpollThreads.Events.Interest

/-!
# One direction at a time

A connection is registered for writing and each handler asks for the other
direction when it is done, so a mask never has both directions. Since the kernel
reports only what the mask asks for, errors and hang-ups, a worker is in the
handler that the mask asks for.
-/

namespace EpollThreads.Dispatch

open Foundations Events

/-- The handlers that transfer data. -/
inductive Handler
  | iRead
  | iWrite
  deriving DecidableEq, Repr

namespace Handler

def flag : Handler → BitVec 32
  | .iRead => EPOLLIN
  | .iWrite => EPOLLOUT

def mode : Handler → Mode
  | .iRead => .read
  | .iWrite => .write

def other : Handler → Handler
  | .iRead => .iWrite
  | .iWrite => .iRead

theorem other_ne (h : Handler) : h.other ≠ h := by
  cases h <;> decide

theorem eq_or_eq_other (h h' : Handler) : h' = h ∨ h' = h.other := by
  cases h <;> cases h' <;> decide

end Handler

/-- A mask for one direction, that of `h`. -/
def Asks (h : Handler) (mask : BitVec 32) : Prop :=
  has mask h.flag = true ∧ has mask h.other.flag = false

instance (h : Handler) (mask : BitVec 32) : Decidable (Asks h mask) :=
  inferInstanceAs (Decidable (_ ∧ _))

theorem asks_addEvents (h : Handler) : Asks h (addEvents h.mode .edgeTriggered) := by
  cases h <;> exact ⟨by decide, by decide⟩

theorem asks_changeModeEvents (h : Handler) :
    Asks h (changeModeEvents h.mode .edgeTriggered) := by
  cases h <;> exact ⟨by decide, by decide⟩

/-- A mask with a flag of some direction is for that direction. -/
theorem Asks.eq {h h' : Handler} {mask : BitVec 32} (ha : Asks h mask)
    (hf : has mask h'.flag = true) : h' = h := by
  rcases h.eq_or_eq_other h' with he | rfl
  · exact he
  · rw [ha.2] at hf
    cases hf

theorem Asks.not_other {h : Handler} {mask : BitVec 32} (ha : Asks h mask) :
    ¬Asks h.other mask :=
  fun ho => h.other_ne (ha.eq ho.1)

/-- What `epoll_wait` may report for a descriptor with this mask. -/
def InMask (events mask : BitVec 32) : Prop :=
  events &&& (mask ||| EPOLLERR ||| EPOLLHUP) = events

instance (events mask : BitVec 32) : Decidable (InMask events mask) :=
  inferInstanceAs (Decidable (_ = _))

theorem InMask.has_flag {events mask : BitVec 32} {h : Handler} (hm : InMask events mask)
    (hf : has events h.flag = true) : has mask h.flag = true := by
  rw [← hm] at hf
  have hmask := has_of_and hf
  have herr : EPOLLERR &&& h.flag = 0#32 := by cases h <;> decide
  have hhup : EPOLLHUP &&& h.flag = 0#32 := by cases h <;> decide
  simpa only [has, BitVec.and_or_distrib_right, herr, hhup, BitVec.or_zero] using hmask

/-- A report for a mask of one direction has the flag of that direction at most. -/
theorem InMask.eq {events mask : BitVec 32} {h h' : Handler} (hm : InMask events mask)
    (ha : Asks h mask) (hf : has events h'.flag = true) : h' = h :=
  ha.eq (hm.has_flag hf)

/-- The handler that a stage belongs to. -/
def serving : Stage → Option Handler
  | .recvn _ | .changeToWrite => some .iRead
  | .format | .sendn _ | .changeToRead => some .iWrite
  | _ => none

/-- The handler that has done its transfer and returns 0 after the mode change. -/
def returning : Stage → Option Handler
  | .changeToWrite => some .iRead
  | .changeToRead => some .iWrite
  | _ => none

theorem serving_of_returning {stage : Stage} {h : Handler} (hr : returning stage = some h) :
    serving stage = some h := by
  cases stage <;> first | exact hr | simp [returning] at hr

theorem stillRegistered_of_serving {stage : Stage} {h : Handler} (hs : serving stage = some h) :
    StillRegistered stage := by
  cases stage <;> trivial

theorem newMode_of_returning {stage : Stage} {h : Handler} (hr : returning stage = some h) :
    stage.newMode = h.other.mode := by
  cases stage <;> simp only [returning, Option.some.injEq, reduceCtorEq] at hr <;> subst hr <;> rfl

theorem exists_asks_newMode (stage : Stage) :
    ∃ h, Asks h (changeModeEvents stage.newMode .edgeTriggered) := by
  cases stage with
  | changeToWrite => exact ⟨.iWrite, asks_changeModeEvents .iWrite⟩
  | _ => exact ⟨.iRead, asks_changeModeEvents .iRead⟩

theorem serving_afterWrite {events : BitVec 32} {nRet : ℤ} :
    ∀ stage ∈ afterWrite events nRet, serving stage = none := by
  unfold afterWrite afterError
  split
  · simp [serving]
  · split <;> simp [serving]

theorem afterRead_of_not_out {events : BitVec 32} (h : has events EPOLLOUT = false) (nRet : ℤ) :
    afterRead events nRet = afterWrite events nRet := by
  simp [afterRead, h]

/-- A step stays in its handler or leaves it for `iError`, `iClose` or the next event. -/
theorem serving_advance {role : Role} {sockfd : ℕ} {events : BitVec 32} {nRet : ℤ}
    {stage : Stage} {act : HandlerAct} {p : Pass}
    (h : stage.advance role sockfd events nRet act = some p)
    (hout : serving stage = some .iRead → has events EPOLLOUT = false) :
    ∀ stage' ∈ p.stage, ∀ h' ∈ serving stage', serving stage = some h' := by
  have hleave : ∀ {nRet' : ℤ}, ∀ stage' ∈ afterWrite events nRet', ∀ h' ∈ serving stage',
      serving stage = some h' := by
    intro nRet' stage' hs h' hh
    simp [serving_afterWrite stage' hs] at hh
  have hnext := Stage.next_of_advance h
  generalize p.stage = next at hnext
  cases hnext with
  | receiving | received | formatted | sending | sent =>
    intro stage' hs h' hh
    obtain rfl := Option.some.inj hs
    exact hh
  | unreceived | changedToWrite =>
    rw [afterRead_of_not_out (hout rfl)]
    exact hleave
  | unsent | changedToRead => exact hleave
  | failed | deleted | decremented => simp [serving]
  | closed => split <;> simp [serving]

theorem returning_of_mod {role : Role} {sockfd : ℕ} {events : BitVec 32} {nRet : ℤ}
    {stage : Stage} {ok : Bool} {p : Pass}
    (h : stage.advance role sockfd events nRet (.mod ok) = some p) :
    ∃ h', returning stage = some h' := by
  have hnext := Stage.next_of_advance h
  generalize p.stage = next at hnext
  cases hnext with
  | changedToWrite | changedToRead => exact ⟨_, rfl⟩

theorem serving_mod {role : Role} {sockfd : ℕ} {events : BitVec 32} {nRet : ℤ} {stage : Stage}
    {ok : Bool} {p : Pass} (h : stage.advance role sockfd events nRet (.mod ok) = some p)
    (hout : serving stage = some .iRead → has events EPOLLOUT = false) :
    ∀ stage' ∈ p.stage, serving stage' = none := by
  have hnext := Stage.next_of_advance h
  generalize p.stage = next at hnext
  cases hnext with
  | changedToWrite =>
    rw [afterRead_of_not_out (hout rfl)]
    exact serving_afterWrite
  | changedToRead => exact serving_afterWrite

/-- The handler at the head of the loop body is the one the mask asks for. -/
theorem serving_beginEvent {events mask : BitVec 32} {nRet : ℤ} {h : Handler}
    (hm : InMask events mask) (ha : Asks h mask) :
    ∀ stage ∈ beginEvent events nRet, ∀ h' ∈ serving stage,
      h' = h ∧ (h' = .iRead → has events EPOLLOUT = false) := by
  intro stage hs h' hh
  unfold beginEvent at hs
  split at hs
  · rename_i hin
    obtain rfl := Option.some.inj hs
    obtain rfl := Option.some.inj hh
    have he : .iRead = h := hm.eq ha hin
    refine ⟨he, fun _ => ?_⟩
    by_contra hout
    have he' : .iWrite = h := hm.eq ha (eq_true_of_ne_false hout)
    exact absurd (he.trans he'.symm) (by decide)
  · unfold afterRead at hs
    split at hs
    · rename_i hout
      obtain rfl := Option.some.inj hs
      obtain rfl := Option.some.inj hh
      exact ⟨hm.eq ha hout, fun he => by cases he⟩
    · simp [serving_afterWrite stage hs] at hh

/-- An event of the batch that the worker has not begun. -/
def Worker.Awaits (x : Worker) (ev : Event) : Prop :=
  ev.fd ∈ x.registered ∧ InMask ev.events (x.interest ev.fd).events

/-- Every mask in the interest list meets `P`. -/
def Worker.Masked (P : BitVec 32 → Prop) (x : Worker) : Prop :=
  ∀ fd ∈ x.registered, P (x.interest fd).events

/-- Every mask is for one direction. -/
abbrev Worker.OneWay : Worker → Prop := Worker.Masked fun mask => ∃ h, Asks h mask

/-- A worker in a handler is there because the mask asks for it. -/
structure Worker.Directed (x : Worker) : Prop where
  current : ∀ {ev stage rest}, x.pc = .event ev stage rest → ∀ h ∈ serving stage,
    Asks h (x.interest ev.fd).events ∧ (h = .iRead → has ev.events EPOLLOUT = false)
  waiting : ∀ {ev stage rest}, x.pc = .event ev stage rest → ∀ e ∈ rest,
    InMask e.events (x.interest e.fd).events

namespace Worker.Masked

variable {P : BitVec 32 → Prop} {x : Worker}

theorem insert (h : Masked P x) (fd : Fd) {r : Registration} (hr : P r.events) :
    Masked P (x.insert fd r) := by
  intro fd' hfd'
  by_cases he : fd' = fd
  · subst he
    simpa [Worker.insert] using hr
  · have hreg : fd' ∈ x.registered := by simpa [Worker.insert, he] using hfd'
    simpa [Worker.insert, he] using h fd' hreg

theorem changeMask (h : Masked P x) (fd : Fd) {events : BitVec 32}
    (hev : fd ∈ x.registered → P events) : Masked P (x.changeMask fd events) := by
  intro fd' hfd'
  by_cases he : fd' = fd
  · subst he
    simpa [Worker.changeMask] using hev hfd'
  · simpa [Worker.changeMask, he] using h fd' hfd'

theorem remove (h : Masked P x) (fd : Fd) : Masked P (x.remove fd) :=
  fun fd' hfd' => h fd' (Finset.mem_of_mem_erase hfd')

end Worker.Masked

namespace Worker.Directed

variable {files : Fd → Option Conn} {x : Worker}

theorem awaits (h : Directed x) (ho : WorkerOwned files x) {ev e : Event} {stage : Stage}
    {rest : List Event} (hpc : x.pc = .event ev stage rest) (he : e ∈ rest) :
    x.Awaits e ∧ e.fd ≠ ev.fd := by
  obtain ⟨hreg, -, hne⟩ := ho.behind hpc he
  exact ⟨⟨hreg, h.waiting hpc e he⟩, hne⟩

/-- The loop goes on to the next event that has something to do. -/
theorem dispatch (hone : x.OneWay) {nRet : ℤ} {events : List Event}
    (hpc : x.pc = .dispatch nRet events) (hev : ∀ ev ∈ events, x.Awaits ev) : Directed x := by
  refine ⟨fun {ev stage rest} he => ?_, fun {ev stage rest} he => ?_⟩ <;>
    rcases WorkerPc.dispatch_cases nRet events with hd | ⟨ev', stage', rest', hd, hs, hb⟩ <;>
    rw [hpc, hd] at he
  · cases he
  · obtain ⟨rfl, rfl, rfl⟩ := WorkerPc.event.inj he
    intro h' hh
    obtain ⟨hreg, hmask⟩ := hev ev' (hs.subset List.mem_cons_self)
    obtain ⟨h, ha⟩ := hone ev'.fd hreg
    obtain ⟨rfl, hout⟩ := serving_beginEvent hmask ha stage' hb h' hh
    exact ⟨ha, hout⟩
  · cases he
  · obtain ⟨rfl, rfl, rfl⟩ := WorkerPc.event.inj he
    intro e hmem
    exact (hev e (hs.subset (List.mem_cons_of_mem _ hmem))).2

theorem goOn {ev : Event} {stage : Stage} {rest : List Event} (hpc : x.pc = .event ev stage rest)
    (hcur : ∀ h ∈ serving stage,
      Asks h (x.interest ev.fd).events ∧ (h = .iRead → has ev.events EPOLLOUT = false))
    (hrest : ∀ e ∈ rest, InMask e.events (x.interest e.fd).events) : Directed x where
  current he := by
    rw [hpc] at he
    obtain ⟨rfl, rfl, rfl⟩ := WorkerPc.event.inj he
    exact hcur
  waiting he := by
    rw [hpc] at he
    obtain ⟨rfl, rfl, rfl⟩ := WorkerPc.event.inj he
    exact hrest

theorem resume (hone : x.OneWay) {ev : Event} {rest : List Event} {p : Pass}
    (hcur : ∀ stage ∈ p.stage, ∀ h ∈ serving stage,
      Asks h (x.interest ev.fd).events ∧ (h = .iRead → has ev.events EPOLLOUT = false))
    (hrest : ∀ e ∈ rest, x.Awaits e) : Directed (x.resume ev rest p) := by
  cases hs : p.stage with
  | none =>
    have hpc : (x.resume ev rest p).pc = .dispatch p.nRet rest := by simp [Worker.resume, hs]
    exact dispatch hone hpc hrest
  | some stage =>
    have hpc : (x.resume ev rest p).pc = .event ev stage rest := by simp [Worker.resume, hs]
    exact goOn hpc (hcur stage hs) fun e he => (hrest e he).2

theorem not_out (h : Directed x) {ev : Event} {stage : Stage} {rest : List Event}
    (hpc : x.pc = .event ev stage rest) (hs : serving stage = some .iRead) :
    has ev.events EPOLLOUT = false :=
  (h.current hpc _ hs).2 rfl

theorem quiet (h : Directed x) (hone : x.OneWay) (ho : WorkerOwned files x) {act : HandlerAct}
    {ev : Event} {stage : Stage} {rest : List Event} {p : Pass} (hpc : x.pc = .event ev stage rest)
    (hp : stage.advance .taskThread ev.fd ev.events x.nRet act = some p) :
    Directed (x.resume ev rest p) := by
  apply resume hone
  · intro stage' hs h' hh
    exact h.current hpc h' (serving_advance hp (h.not_out hpc) stage' hs h' hh)
  · intro e he
    exact (h.awaits ho hpc he).1

theorem modOk (h : Directed x) (hone : x.OneWay) (ho : WorkerOwned files x) {ev : Event}
    {stage : Stage} {rest : List Event} {p : Pass} (hpc : x.pc = .event ev stage rest)
    (hp : stage.advance .taskThread ev.fd ev.events x.nRet (.mod true) = some p) :
    Directed ((x.changeMask ev.fd (changeModeEvents stage.newMode .edgeTriggered)).resume
      ev rest p) := by
  apply resume (hone.changeMask ev.fd fun _ => exists_asks_newMode stage)
  · intro stage' hs h' hh
    simp [serving_mod hp (h.not_out hpc) stage' hs] at hh
  · intro e he
    obtain ⟨⟨hreg, hmask⟩, hne⟩ := h.awaits ho hpc he
    exact ⟨hreg, by simpa [changeMask, hne] using hmask⟩

theorem remove (h : Directed x) (fd : Fd) : Directed (x.remove fd) where
  current hpc := h.current hpc
  waiting hpc := h.waiting hpc

theorem insert (h : Directed x) (ho : WorkerOwned files x) {fd : Fd} {c : Conn}
    (hfd : fd ∉ x.registered) :
    Directed (x.insert fd ⟨c, addEvents .write .edgeTriggered⟩) where
  current {ev stage rest} hpc h' hh := by
    have hreg := (ho.current hpc (stillRegistered_of_serving hh)).1
    have hne : ev.fd ≠ fd := fun heq => hfd (heq ▸ hreg)
    simpa only [Worker.insert, Function.update_of_ne hne] using h.current hpc h' hh
  waiting {ev stage rest} hpc e he := by
    obtain ⟨⟨hreg, hmask⟩, -⟩ := h.awaits ho hpc he
    have hne : e.fd ≠ fd := fun heq => hfd (heq ▸ hreg)
    simpa [Worker.insert, hne] using hmask

theorem closing (h : Directed x) {ev : Event} {stage stage' : Stage} {rest : List Event}
    (hpc : x.pc = .event ev stage rest) (hs : serving stage' = none) :
    Directed { x with pc := .event ev stage' rest } :=
  goOn rfl (by simp [hs]) (h.waiting hpc)

end Worker.Directed

namespace Server

variable {n : ℕ} {maxclients : ℤ} {s t : Server n}

/-- What the kernel may report where the worker waits. -/
def Reports (s : Server n) : Action n → Prop
  | .wait w batch => ∀ p ∈ batch, InMask p.2 ((s.workers w).interest p.1).events
  | _ => True

instance (s : Server n) (a : Action n) : Decidable (s.Reports a) := by
  unfold Reports
  split <;> infer_instance

/-- `P` holds of all masks when it holds of the first one and is kept by the mode changes. -/
structure MaskInvariant (P : BitVec 32 → Prop) : Prop where
  add : P (addEvents .write .edgeTriggered)
  changeMode : ∀ mask stage, P mask →
    P (changeModeEvents (Stage.newMode stage) .edgeTriggered)

def Masked (P : BitVec 32 → Prop) (s : Server n) : Prop := ∀ w, (s.workers w).Masked P

namespace Masked

variable {P : BitVec 32 → Prop}

theorem closeFd (h : Masked P s) (fd : Fd) : Masked P (s.closeFd fd) :=
  forall_closeFd h fun _ hx => hx.remove fd

theorem step (h : Masked P s) (hP : MaskInvariant P) {a : Action n}
    (ht : Transition maxclients s a t) : Masked P t := by
  cases ht with
  | shutdown | listenerTest | listenFails | accept | read | addFail => exact h
  | refuse => exact h.closeFd _
  | @addOk sockfd w => exact forall_setWorker h ((h w).insert _ hP.add)
  | @modOk w ev stage rest p hpc hp hreg =>
    refine forall_setWorker h ((h w).changeMask ev.fd fun hmem => ?_)
    exact hP.changeMode _ stage (h w ev.fd hmem)
  | @delOk w ev => exact forall_setWorker h ((h w).remove ev.fd)
  | @close w ev => exact forall_setWorker (h.closeFd ev.fd) (h.closeFd ev.fd w)
  | @increment sockfd w | @workerTest w | @wait w | @quiet w | @delFail w | @dec w =>
    exact forall_setWorker h (h w)

theorem of_start (h : Start s) : Masked P s := by
  intro w fd hfd
  simp [(h.worker w).2.1] at hfd

theorem of_reaches (hP : MaskInvariant P) {tr : List (Action n)}
    (h : (serverMachine n maxclients).Reaches tr s) : Masked P s :=
  h.invariant of_start fun hs hstep => hs.step hP (step_cases hstep)

end Masked

/-- The interest lists hold what the calls of `iEpoll` for one descriptor leave. -/
theorem interest_reaches {tr : List (Action n)} (h : (serverMachine n maxclients).Reaches tr s) :
    Masked (fun mask => ∃ calls, interestMachine.Reaches calls (some mask)) s := by
  refine Masked.of_reaches ⟨?_, ?_⟩ h
  · exact ⟨[.add .write .edgeTriggered], none, rfl, .single rfl⟩
  · rintro mask stage ⟨calls, s₀, hs, hrun⟩
    exact ⟨calls ++ [.changeMode stage.newMode .edgeTriggered], s₀, hs, hrun.snoc rfl⟩

abbrev OneWay : Server n → Prop := Masked fun mask => ∃ h, Asks h mask

theorem oneWay_invariant : MaskInvariant fun mask => ∃ h, Asks h mask :=
  ⟨⟨.iWrite, asks_addEvents .iWrite⟩, fun _ stage _ => exists_asks_newMode stage⟩

def Directed (s : Server n) : Prop := ∀ w, (s.workers w).Directed

namespace Directed

theorem closeFd (h : Directed s) (fd : Fd) : Directed (s.closeFd fd) :=
  forall_closeFd h fun _ hx => hx.remove fd

theorem step (h : Directed s) (hone : OneWay s) (ho : Owned s) {a : Action n}
    (ht : Transition maxclients s a t) (hr : s.Reports a) : Directed t := by
  cases ht with
  | shutdown | listenerTest | listenFails | accept | read | addFail => exact h
  | refuse => exact h.closeFd _
  | @addOk sockfd w c hl hc he hreg => exact forall_setWorker h ((h w).insert (ho.worker w) hreg)
  | @increment sockfd w hl => exact forall_setWorker h ⟨(h w).current, (h w).waiting⟩
  | @workerTest w hpc =>
    refine forall_setWorker h ⟨?_, ?_⟩ <;> intro ev stage rest he <;> split at he <;> cases he
  | @wait w batch hpc hnd hreg =>
    apply forall_setWorker h
    refine Worker.Directed.dispatch ?_ rfl ?_
    · exact hone w
    · intro ev hev
      obtain ⟨p, hp, rfl⟩ := List.mem_map.mp hev
      exact ⟨hreg p hp, hr p hp⟩
  | @quiet w act ev stage rest p hpc hq hp =>
    exact forall_setWorker h ((h w).quiet (hone w) (ho.worker w) hpc hp)
  | @modOk w ev stage rest p hpc hp hreg =>
    exact forall_setWorker h ((h w).modOk (hone w) (ho.worker w) hpc hp)
  | @delOk w ev rest hpc hreg => exact forall_setWorker h (((h w).remove ev.fd).closing hpc rfl)
  | @delFail w ev rest hpc => exact forall_setWorker h ((h w).closing hpc rfl)
  | @close w ev deleted rest hpc =>
    have hc := h.closeFd ev.fd
    exact forall_setWorker hc ((hc w).closing (by rw [closeFd_pc]; exact hpc) rfl)
  | @dec w ev rest hpc =>
    apply forall_setWorker h
    refine Worker.Directed.dispatch ?_ rfl ?_
    · exact hone w
    · intro e he
      exact ((h w).awaits (ho.worker w) hpc he).1

theorem of_start (h : Start s) : Directed s := by
  intro w
  obtain ⟨-, -, -, hpc⟩ := h.worker w
  refine ⟨?_, ?_⟩ <;> intro ev stage rest he <;>
    rcases hpc with hpc | hpc <;> simp [hpc] at he

end Directed
end Server

/-- The server over a kernel that reports only what the masks ask for, errors and hang-ups. -/
def maskedMachine (n : ℕ) (maxclients : ℤ) : Machine (Server n) (Action n) :=
  (serverMachine n maxclients).restrict fun s a _ => s.Reports a

namespace Server

variable {n : ℕ} {maxclients : ℤ} {s t : Server n}

theorem masked_step {a : Action n} (h : (maskedMachine n maxclients).step s a = some t) :
    Transition maxclients s a t ∧ s.Reports a := by
  obtain ⟨hstep, hr⟩ := Machine.restrict_step.mp h
  exact ⟨step_cases hstep, hr⟩

end Server

end EpollThreads.Dispatch
