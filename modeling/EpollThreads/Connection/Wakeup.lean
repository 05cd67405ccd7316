import EpollThreads.Connection.Endpoint

/-!
# No lost wakeup under edge triggering

A handler does not drain its socket, and a byte that was there before raises no
edge of its own. Every way back from a handler to waiting on an open connection
goes through a successful mode change, though, and the mode change polls the
socket again.
-/

namespace EpollThreads.Connection

open Foundations Events

namespace Endpoint

variable {role : Role} {sockfd : ℕ} {e e' : Endpoint}

theorem ready_in (e : Endpoint) : e.ready &&& EPOLLIN = if e.readable then EPOLLIN else 0 := by
  unfold ready
  split_ifs <;> decide

theorem ready_out (e : Endpoint) : e.ready &&& EPOLLOUT = if e.writable then EPOLLOUT else 0 := by
  unfold ready
  split_ifs <;> decide

/-- A readable socket polled under a mask with `EPOLLIN` reports it. -/
theorem has_ready_in {m : BitVec 32} (h : e.readable = true) :
    has (e.ready &&& m) EPOLLIN = has m EPOLLIN := by
  have hb : e.ready &&& m &&& EPOLLIN = m &&& EPOLLIN := by
    rw [BitVec.and_assoc, BitVec.and_comm m, ← BitVec.and_assoc, ready_in, if_pos h,
      BitVec.and_comm]
  simp only [has, hb]

theorem has_ready_out {m : BitVec 32} (h : e.writable = true) :
    has (e.ready &&& m) EPOLLOUT = has m EPOLLOUT := by
  have hb : e.ready &&& m &&& EPOLLOUT = m &&& EPOLLOUT := by
    rw [BitVec.and_assoc, BitVec.and_comm m, ← BitVec.and_assoc, ready_out, if_pos h,
      BitVec.and_comm]
  simp only [has, hb]

/-- What the mask waits for and the socket has is on the ready list or in `events`. -/
def Covered (e : Endpoint) (events : BitVec 32) : Prop :=
  ∀ m, e.mask = some m →
    (has m EPOLLIN → e.readable → e.pending ∨ has events EPOLLIN) ∧
    (has m EPOLLOUT → e.writable → e.pending ∨ has events EPOLLOUT)

namespace Covered

variable {events : BitVec 32}

theorem mono (h : e.Covered events) (hm : e'.mask = e.mask)
    (hr : e'.readable → e.readable) (hw : e'.writable → e.writable)
    (hp : e.pending → e'.pending) : e'.Covered events := by
  intro m hmask
  obtain ⟨hin, hout⟩ := h m (hm ▸ hmask)
  exact ⟨fun h1 h2 => (hin h1 (hr h2)).imp_left hp, fun h1 h2 => (hout h1 (hw h2)).imp_left hp⟩

theorem marked {flags : BitVec 32} (h : e.Covered events) (hm : e'.mask = e.mask)
    (hp : e'.pending = (e.pending || e.mask.any (has · flags)))
    (hr : e'.readable → e.readable ∨ ∀ m, has m EPOLLIN → has m flags)
    (hw : e'.writable → e.writable ∨ ∀ m, has m EPOLLOUT → has m flags) :
    e'.Covered events := by
  intro m hmask
  rw [hm] at hmask
  obtain ⟨hin, hout⟩ := h m hmask
  refine ⟨fun h1 h2 => ?_, fun h1 h2 => ?_⟩
  · rcases hr h2 with hr | hf
    · exact (hin h1 hr).imp_left fun hpe => by simp [hp, hpe]
    · exact Or.inl (by simp [hp, hmask, hf m h1])
  · rcases hw h2 with hw | hf
    · exact (hout h1 hw).imp_left fun hpe => by simp [hp, hpe]
    · exact Or.inl (by simp [hp, hmask, hf m h1])

/-- `EPOLL_CTL_ADD` and `EPOLL_CTL_MOD` leave nothing uncovered. -/
theorem install (e : Endpoint) (m : BitVec 32) : (e.install m).Covered events := by
  intro m' hm
  obtain rfl : m = m' := Option.some.inj hm
  have hready : ∀ {flags}, has (e.ready &&& m) flags → (e.install m).pending := by
    intro flags hf
    have hne : e.ready &&& m ≠ 0#32 := by
      intro hz
      simp [hz] at hf
    simp [Endpoint.install, hne]
  exact ⟨fun h1 h2 => Or.inl (hready ((has_ready_in (e := e) h2).trans h1)),
    fun h1 h2 => Or.inl (hready ((has_ready_out (e := e) h2).trans h1))⟩

theorem report {m : BitVec 32} (hm : e.mask = some m) (pc : EndpointPc) :
    { e with pending := false, pc := pc }.Covered (e.ready &&& m) := by
  intro m' hm'
  obtain rfl := Option.some.inj (hm.symm.trans hm')
  exact ⟨fun h1 h2 => Or.inr ((has_ready_in (e := e) h2).trans h1),
    fun h1 h2 => Or.inr ((has_ready_out (e := e) h2).trans h1)⟩

theorem of_begin_none (h : e.Covered events) {nRet : ℤ} (hb : beginEvent events nRet = none) :
    e.Covered 0 := by
  have hin : has events EPOLLIN = false := by
    cases hc : has events EPOLLIN with
    | false => rfl
    | true => simp [beginEvent, hc] at hb
  have hout : has events EPOLLOUT = false := by
    cases hc : has events EPOLLOUT with
    | false => rfl
    | true => simp [beginEvent, hin, afterRead, hc] at hb
  intro m hm
  simpa [hin, hout] using h m hm

end Covered

/-- Nothing is missed while the worker is away from the connection. -/
structure Watched (e : Endpoint) : Prop where
  idle : e.pc = .idle → e.opened → e.Covered 0
  reported : ∀ events, e.pc = .reported events → e.Covered events

theorem Watched.keep (h : e.Watched) (hpc : e'.pc = e.pc) (ho : e'.opened = e.opened)
    (hc : ∀ events, e.Covered events → e'.Covered events) : e'.Watched where
  idle hp hopen := hc 0 (h.idle (hpc ▸ hp) (ho ▸ hopen))
  reported events hp := hc events (h.reported events (hpc ▸ hp))

theorem watched_resume {events : BitVec 32} {p : Pass}
    (hidle : p.stage = none → e.opened → e.Covered 0) : (e.resume events p).Watched := by
  unfold resume
  cases hp : p.stage with
  | none => exact ⟨fun _ => hidle hp, by simp⟩
  | some stage => exact ⟨by simp, by simp⟩

/-- A handler that failed goes on to write or to close, never back to waiting. -/
theorem afterWrite_neg (events : BitVec 32) : ∃ stage, afterWrite events (-1) = some stage := by
  unfold afterWrite
  split
  · exact ⟨_, rfl⟩
  · exact ⟨.del, rfl⟩

theorem afterRead_neg (events : BitVec 32) : ∃ stage, afterRead events (-1) = some stage := by
  unfold afterRead
  split
  · exact ⟨_, rfl⟩
  · exact afterWrite_neg events

theorem ofRecvn_ne_none (events : BitVec 32) (nRet : ℤ) (l : LoopStep Recvn) :
    (Stage.ofRecvn events nRet l).stage ≠ none := by
  cases l with
  | again r => simp [Stage.ofRecvn]
  | done bytes =>
    obtain ⟨stage, hs⟩ := afterRead_neg events
    simp only [Stage.ofRecvn, hs]
    split <;> simp

theorem ofSendn_ne_none (events : BitVec 32) (nRet : ℤ) (l : LoopStep Sendn) :
    (Stage.ofSendn events nRet l).stage ≠ none := by
  cases l with
  | again s => simp [Stage.ofSendn]
  | done bytes =>
    obtain ⟨stage, hs⟩ := afterWrite_neg events
    simp only [Stage.ofSendn, hs]
    split <;> simp

theorem Watched.step (h : e.Watched) (hw : e.Wf) {a : EndpointAct} (hok : a.CtlOk)
    (ht : Transition role sockfd e a e') : e'.Watched := by
  cases ht with
  | arrive =>
    exact h.keep rfl rfl fun _ hc => hc.marked rfl rfl (fun _ => Or.inr fun _ => id) Or.inl
  | fin =>
    exact h.keep rfl rfl fun _ hc =>
      hc.marked rfl rfl (fun _ => Or.inr fun _ => has_mono (by decide)) Or.inl
  | reset =>
    exact h.keep rfl rfl fun _ hc =>
      hc.marked rfl rfl (fun _ => Or.inr fun _ => has_mono (by decide))
        fun _ => Or.inr fun _ => has_mono (by decide)
  | drainEmpty =>
    exact h.keep rfl rfl fun _ hc => hc.marked rfl rfl Or.inl fun _ => Or.inr fun _ => id
  | drain hr =>
    refine h.keep rfl rfl fun _ hc => hc.mono rfl id (fun _ => ?_) id
    simp [writable, Nat.pos_of_ne_zero hr]
  | wake => exact h.keep rfl rfl fun _ hc => hc.mono rfl id id fun _ => rfl
  | add ho hm hpc => exact ⟨fun _ _ => Covered.install e _, by simp [hpc]⟩
  | skip hpc hm hz =>
    have hc := Covered.report hm e.pc
    rw [hz] at hc
    exact ⟨fun _ _ => hc, by simp [hpc]⟩
  | report hpc hm =>
    refine ⟨by simp, fun events he => ?_⟩
    obtain rfl := EndpointPc.reported.inj he
    exact Covered.report hm _
  | begin hpc => exact watched_resume fun hb _ => (h.reported _ hpc).of_begin_none hb
  | recv => exact watched_resume fun hn => (ofRecvn_ne_none _ _ _ hn).elim
  | changeToWrite hpc hm he | changeToRead hpc hm he =>
    obtain rfl : _ = true := hok
    subst he
    exact watched_resume fun _ _ => Covered.install e _
  | send => exact watched_resume fun hn => (ofSendn_ne_none _ _ _ hn).elim
  | format | error | del => exact watched_resume (by simp)
  | close => exact watched_resume (by simp)
  | dec hpc =>
    have hopen : e.opened = false := (hw.stage _ _ hpc).2 rfl
    exact watched_resume fun _ ho => by simp [hopen] at ho

theorem watched_of_start (h : e.Start) : e.Watched where
  idle _ _ m hm := by simp [h.mask] at hm
  reported events hp := by simp [h.pc] at hp

theorem Watched.of_reaches {tr : List EndpointAct}
    (h : (endpointMachine role sockfd).Reaches tr e) (hok : ∀ a ∈ tr, a.CtlOk) : e.Watched := by
  have hw : e.Wf ∧ e.Watched :=
    h.invariant_of (I := fun e => e.Wf ∧ e.Watched)
      (fun hs => ⟨.of_start hs, watched_of_start hs⟩)
      (fun hok hs hstep => ⟨hs.1.step (step_cases hstep),
        hs.2.step hs.1 hok (step_cases hstep)⟩) hok
  exact hw.2

/-- No lost wakeup: an open connection that waits for a direction the socket is ready in
is on the ready list. -/
theorem no_lost_wakeup {tr : List EndpointAct} (h : (endpointMachine role sockfd).Reaches tr e)
    (hok : ∀ a ∈ tr, a.CtlOk) (hopen : e.opened = true) (hpc : e.pc = .idle) {m : BitVec 32}
    (hm : e.mask = some m) :
    (has m EPOLLIN → e.readable → e.pending) ∧ (has m EPOLLOUT → e.writable → e.pending) := by
  simpa using (Watched.of_reaches h hok).idle hpc hopen m hm

/-- The peer answers, and sends more while `iRead` is still running. -/
def lateArrival : List EndpointAct :=
  [.add, .wait, .begin (-1), .handle (.format 1), .handle (.send (.sent 14) 0),
    .handle (.mod true), .arrive [72], .wait, .begin 0, .handle (.recv (.data [72]) 0),
    .handle (.recv .fail EAGAIN), .arrive [73], .handle (.mod true), .wait, .begin 0,
    .handle (.format 2), .handle (.send (.sent 14) 0), .handle (.mod true)]

theorem no_lost_wakeup_lateArrival :
    ∃ (e : Endpoint) (m : BitVec 32), (endpointMachine .taskThread 7).Reaches lateArrival e ∧
      e.mask = some m ∧ has m EPOLLIN ∧ e.readable ∧ e.pending := by
  have h := Machine.Reaches.of_isSome (M := endpointMachine .taskThread 7)
    (s := ⟨[], false, false, 100, none, false, true, -1, .idle⟩)
    ⟨rfl, rfl, rfl, rfl⟩ lateArrival (by decide)
  exact ⟨_, _, h, rfl, by decide, by decide,
    (no_lost_wakeup h (by simp [lateArrival, EndpointAct.CtlOk])
      (by decide) (by decide) rfl).1 (by decide) (by decide)⟩

end Endpoint
end EpollThreads.Connection
