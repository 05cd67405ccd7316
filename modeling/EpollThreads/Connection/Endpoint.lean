import EpollThreads.Events.EventLoop
import EpollThreads.Foundations.Machine

/-!
# One connection of a worker and its socket

The kernel side of an endpoint is its receive queue, its free send space and
its entry in an edge-triggered interest list: the mask and whether the entry is
on the ready list. `epoll_wait` takes it off the list and reports what is ready
under the mask at that time. Arrivals happen at any point, also while a handler
runs or while the reported event waits for its turn in the batch.
-/

namespace EpollThreads.Connection

open Foundations Events

inductive EndpointPc
  | idle
  | reported (events : BitVec 32)
  | handling (events : BitVec 32) (stage : Stage)
  deriving DecidableEq, Repr

structure Endpoint where
  rcvq : List Byte
  eof : Bool
  reset : Bool
  room : ℕ
  mask : Option (BitVec 32)
  pending : Bool
  opened : Bool
  nRet : ℤ
  pc : EndpointPc
  deriving DecidableEq, Repr

/-- What the peer and the kernel do, and what the worker does. -/
inductive EndpointAct
  | arrive (bytes : List Byte)
  | fin
  | reset
  | drain (k : ℕ)
  | wake
  | add
  | wait
  | begin (nRet : ℤ)
  | handle (act : HandlerAct)
  deriving DecidableEq, Repr

/-- The direction `AssignTask` and the test client register first. -/
def firstMode : Role → Mode
  | .taskThread => .write
  | .test => .read

namespace Endpoint

def readable (e : Endpoint) : Bool := !e.rcvq.isEmpty || e.eof || e.reset

def writable (e : Endpoint) : Bool := 0 < e.room || e.reset

/-- What polling the socket returns. -/
def ready (e : Endpoint) : BitVec 32 :=
  (if e.readable then EPOLLIN else 0) ||| (if e.writable then EPOLLOUT else 0) |||
    (if e.eof then EPOLLRDHUP else 0) |||
    (if e.reset then EPOLLERR ||| EPOLLHUP ||| EPOLLRDHUP else 0)

/-- A new edge: the entry goes on the ready list when its mask asks for one of `flags`. -/
def mark (e : Endpoint) (flags : BitVec 32) : Endpoint :=
  { e with pending := e.pending || e.mask.any (has · flags) }

/-- `EPOLL_CTL_ADD` and `EPOLL_CTL_MOD` poll the socket under the new mask. -/
def install (e : Endpoint) (m : BitVec 32) : Endpoint :=
  { e with mask := some m, pending := e.pending || e.ready &&& m != 0 }

/-- What `recv` takes out of the queue. End of stream and errors take nothing. -/
def receive (e : Endpoint) : RecvResult → Option Endpoint
  | .data bytes =>
      if bytes <+: e.rcvq then some { e with rcvq := e.rcvq.drop bytes.length } else none
  | .eof => if e.rcvq = [] ∧ (e.eof ∨ e.reset) then some e else none
  | .fail => some e

def transmit (e : Endpoint) : SendResult → Option Endpoint
  | .sent k => if k ≤ e.room then some { e with room := e.room - k } else none
  | .fail => some e

def effect (e : Endpoint) (stage : Stage) : HandlerAct → Option Endpoint
  | .recv res _ => e.receive res
  | .send res _ => e.transmit res
  | .mod true =>
      if e.mask.isSome then some (e.install (changeModeEvents stage.newMode .edgeTriggered))
      else none
  | .del true =>
      if e.mask.isSome then some { e with mask := none, pending := false } else none
  | .close => some { e with mask := none, pending := false, opened := false }
  | _ => some e

def resume (e : Endpoint) (events : BitVec 32) (p : Pass) : Endpoint :=
  { e with
    nRet := p.nRet
    pc := match p.stage with
      | some stage => .handling events stage
      | none => .idle }

def handle (role : Role) (sockfd : ℕ) (e : Endpoint) (act : HandlerAct) : Option Endpoint :=
  match e.pc with
  | .handling events stage =>
      (stage.advance role sockfd events e.nRet act).bind fun p =>
        (e.effect stage act).map fun e' => e'.resume events p
  | _ => none

def step (role : Role) (sockfd : ℕ) (e : Endpoint) : EndpointAct → Option Endpoint
  | .arrive bytes =>
      if bytes ≠ [] then some ({ e with rcvq := e.rcvq ++ bytes }.mark EPOLLIN) else none
  | .fin => some ({ e with eof := true }.mark (EPOLLIN ||| EPOLLRDHUP))
  | .reset => some ({ e with reset := true }.mark
      (EPOLLIN ||| EPOLLOUT ||| EPOLLERR ||| EPOLLHUP ||| EPOLLRDHUP))
  | .drain k =>
      if e.room = 0 then some ({ e with room := k }.mark EPOLLOUT)
      else some { e with room := e.room + k }
  | .wake => if e.mask.isSome then some { e with pending := true } else none
  | .add =>
      if e.opened ∧ e.mask = none ∧ e.pc = .idle then
        some (e.install (addEvents (firstMode role) .edgeTriggered))
      else none
  | .wait =>
      if e.pc = .idle ∧ e.pending then
        e.mask.map fun m => if e.ready &&& m = 0 then { e with pending := false }
          else { e with pending := false, pc := .reported (e.ready &&& m) }
      else none
  | .begin nRet =>
      match e.pc with
      | .reported events => some (e.resume events ⟨beginEvent events nRet, nRet⟩)
      | _ => none
  | .handle act => e.handle role sockfd act

/-- An accepted or connected socket before its registration. -/
structure Start (e : Endpoint) : Prop where
  opened : e.opened = true
  mask : e.mask = none
  pending : e.pending = false
  pc : e.pc = .idle

end Endpoint

def endpointMachine (role : Role) (sockfd : ℕ) : Machine Endpoint EndpointAct where
  start := Endpoint.Start
  step := Endpoint.step role sockfd

/-- No `epoll_ctl` of the handlers fails. -/
def EndpointAct.CtlOk : EndpointAct → Prop
  | .handle (.mod ok) => ok = true
  | .handle (.del ok) => ok = true
  | _ => True

namespace Endpoint

variable {role : Role} {sockfd : ℕ} {e e' : Endpoint}

@[simp] theorem mark_pc (flags : BitVec 32) : (e.mark flags).pc = e.pc := rfl

@[simp] theorem mark_rcvq (flags : BitVec 32) : (e.mark flags).rcvq = e.rcvq := rfl

@[simp] theorem install_pc (m : BitVec 32) : (e.install m).pc = e.pc := rfl

@[simp] theorem install_mask (m : BitVec 32) : (e.install m).mask = some m := rfl

@[simp] theorem resume_some (events : BitVec 32) (stage : Stage) (nRet : ℤ) :
    (e.resume events ⟨some stage, nRet⟩).pc = .handling events stage := rfl

@[simp] theorem resume_none (events : BitVec 32) (nRet : ℤ) :
    (e.resume events ⟨none, nRet⟩).pc = .idle := rfl

@[simp] theorem resume_mask (events : BitVec 32) (p : Pass) :
    (e.resume events p).mask = e.mask := rfl

@[simp] theorem resume_opened (events : BitVec 32) (p : Pass) :
    (e.resume events p).opened = e.opened := rfl

@[simp] theorem resume_rcvq (events : BitVec 32) (p : Pass) :
    (e.resume events p).rcvq = e.rcvq := rfl

/-- Every step of an endpoint with its guard and effect. -/
inductive Transition (role : Role) (sockfd : ℕ) (e : Endpoint) : EndpointAct → Endpoint → Prop
  | arrive {bytes : List Byte} (h : bytes ≠ []) :
      Transition role sockfd e (.arrive bytes) ({ e with rcvq := e.rcvq ++ bytes }.mark EPOLLIN)
  | fin : Transition role sockfd e .fin ({ e with eof := true }.mark (EPOLLIN ||| EPOLLRDHUP))
  | reset : Transition role sockfd e .reset ({ e with reset := true }.mark
      (EPOLLIN ||| EPOLLOUT ||| EPOLLERR ||| EPOLLHUP ||| EPOLLRDHUP))
  | drainEmpty {k : ℕ} (h : e.room = 0) :
      Transition role sockfd e (.drain k) ({ e with room := k }.mark EPOLLOUT)
  | drain {k : ℕ} (h : e.room ≠ 0) :
      Transition role sockfd e (.drain k) { e with room := e.room + k }
  | wake (h : e.mask.isSome = true) : Transition role sockfd e .wake { e with pending := true }
  | add (ho : e.opened = true) (hm : e.mask = none) (hpc : e.pc = .idle) :
      Transition role sockfd e .add (e.install (addEvents (firstMode role) .edgeTriggered))
  | skip {m : BitVec 32} (hpc : e.pc = .idle) (hm : e.mask = some m) (h : e.ready &&& m = 0) :
      Transition role sockfd e .wait { e with pending := false }
  | report {m : BitVec 32} (hpc : e.pc = .idle) (hm : e.mask = some m) (h : e.ready &&& m ≠ 0) :
      Transition role sockfd e .wait { e with pending := false, pc := .reported (e.ready &&& m) }
  | begin {events : BitVec 32} {nRet : ℤ} (hpc : e.pc = .reported events) :
      Transition role sockfd e (.begin nRet) (e.resume events ⟨beginEvent events nRet, nRet⟩)
  | recv {events : BitVec 32} {r : Recvn} {res : RecvResult} {errno : ℤ} {rcvq : List Byte}
      (hpc : e.pc = .handling events (.recvn r)) (ha : r.Admits res)
      (hq : e.rcvq = received res ++ rcvq) :
      Transition role sockfd e (.handle (.recv res errno))
        ({ e with rcvq := rcvq }.resume events
          (Stage.ofRecvn events e.nRet (r.recv res errno)))
  | changeToWrite {events : BitVec 32} {ok : Bool} {e₁ : Endpoint}
      (hpc : e.pc = .handling events .changeToWrite) (hm : ok = true → e.mask.isSome = true)
      (he : e₁ = if ok then e.install (changeModeEvents .write .edgeTriggered) else e) :
      Transition role sockfd e (.handle (.mod ok)) (e₁.resume events ⟨afterRead events 0, 0⟩)
  | format {events : BitVec 32} {usec : ℕ} (hpc : e.pc = .handling events .format)
      (hlen : (message role sockfd usec).length < MIN_BUFSZ) :
      Transition role sockfd e (.handle (.format usec))
        (e.resume events ⟨some (.sendn (Sendn.start (message role sockfd usec))), e.nRet⟩)
  | send {events : BitVec 32} {s : Sendn} {res : SendResult} {errno : ℤ} {room : ℕ}
      (hpc : e.pc = .handling events (.sendn s)) (ha : s.Admits res) (hr : room ≤ e.room) :
      Transition role sockfd e (.handle (.send res errno))
        ({ e with room := room }.resume events
          (Stage.ofSendn events e.nRet (s.send res errno)))
  | changeToRead {events : BitVec 32} {ok : Bool} {e₁ : Endpoint}
      (hpc : e.pc = .handling events .changeToRead) (hm : ok = true → e.mask.isSome = true)
      (he : e₁ = if ok then e.install (changeModeEvents .read .edgeTriggered) else e) :
      Transition role sockfd e (.handle (.mod ok)) (e₁.resume events ⟨afterWrite events 0, 0⟩)
  | error {events : BitVec 32} (hpc : e.pc = .handling events .iError) :
      Transition role sockfd e (.handle .error) (e.resume events ⟨some .del, -1⟩)
  | del {events : BitVec 32} {ok : Bool} {e₁ : Endpoint} (hpc : e.pc = .handling events .del)
      (he : e₁ = if ok then { e with mask := none, pending := false } else e) :
      Transition role sockfd e (.handle (.del ok)) (e₁.resume events ⟨some (.close ok), e.nRet⟩)
  | close {events : BitVec 32} {deleted : Bool} (hpc : e.pc = .handling events (.close deleted)) :
      Transition role sockfd e (.handle .close)
        ({ e with mask := none, pending := false, opened := false }.resume events
          ⟨if role = Role.taskThread then some .dec else none, e.nRet⟩)
  | dec {events : BitVec 32} (hpc : e.pc = .handling events .dec) :
      Transition role sockfd e (.handle .dec) (e.resume events ⟨none, e.nRet⟩)

theorem receive_cases {res : RecvResult} (h : e.receive res = some e') :
    ∃ rcvq, e.rcvq = received res ++ rcvq ∧ e' = { e with rcvq := rcvq } := by
  cases res with
  | data bytes =>
    simp only [receive, Option.ite_none_right_eq_some, Option.some.injEq] at h
    obtain ⟨⟨rest, hrest⟩, rfl⟩ := h
    exact ⟨rest, hrest.symm, by simp [← hrest]⟩
  | eof =>
    simp only [receive, Option.ite_none_right_eq_some, Option.some.injEq] at h
    exact ⟨e.rcvq, rfl, h.2.symm⟩
  | fail => exact ⟨e.rcvq, rfl, (Option.some.inj h).symm⟩

theorem transmit_cases {res : SendResult} (h : e.transmit res = some e') :
    ∃ room ≤ e.room, e' = { e with room := room } := by
  cases res with
  | sent k =>
    simp only [transmit, Option.ite_none_right_eq_some, Option.some.injEq] at h
    exact ⟨e.room - k, Nat.sub_le _ _, h.2.symm⟩
  | fail => exact ⟨e.room, le_rfl, (Option.some.inj h).symm⟩

theorem effect_mod {stage : Stage} {ok : Bool} (h : e.effect stage (.mod ok) = some e') :
    (ok = true → e.mask.isSome = true) ∧
      e' = if ok then e.install (changeModeEvents stage.newMode .edgeTriggered) else e := by
  cases ok with
  | false => exact ⟨by simp, (Option.some.inj h).symm⟩
  | true =>
    simp only [effect, Option.ite_none_right_eq_some, Option.some.injEq] at h
    exact ⟨fun _ => h.1, h.2.symm⟩

theorem effect_del {stage : Stage} {ok : Bool} (h : e.effect stage (.del ok) = some e') :
    e' = if ok then { e with mask := none, pending := false } else e := by
  cases ok with
  | false => exact (Option.some.inj h).symm
  | true =>
    simp only [effect, Option.ite_none_right_eq_some, Option.some.injEq] at h
    exact h.2.symm

theorem handle_cases {act : HandlerAct} (h : e.handle role sockfd act = some e') :
    Transition role sockfd e (.handle act) e' := by
  unfold handle at h
  split at h
  · rename_i events stage hpc
    obtain ⟨p, hp, h⟩ := Option.bind_eq_some_iff.mp h
    obtain ⟨e₁, he, rfl⟩ := Option.map_eq_some_iff.mp h
    unfold Stage.advance at hp
    split at hp <;> simp only [Option.ite_none_right_eq_some, Option.some.injEq, reduceCtorEq] at hp
    · obtain ⟨ha, rfl⟩ := hp
      obtain ⟨rcvq, hq, rfl⟩ := receive_cases he
      exact .recv hpc ha hq
    · subst hp
      exact .changeToWrite hpc (effect_mod he).1 (effect_mod he).2
    · obtain ⟨hlen, rfl⟩ := hp
      obtain rfl : e = e₁ := Option.some.inj he
      rw [(Sendn.test_start (message_ne_nil _ _ _) hlen).1]
      exact .format hpc hlen
    · obtain ⟨ha, rfl⟩ := hp
      obtain ⟨room, hr, rfl⟩ := transmit_cases he
      exact .send hpc ha hr
    · subst hp
      exact .changeToRead hpc (effect_mod he).1 (effect_mod he).2
    · subst hp
      obtain rfl : e = e₁ := Option.some.inj he
      exact .error hpc
    · subst hp
      exact .del hpc (effect_del he)
    · subst hp
      obtain rfl := Option.some.inj he
      exact .close hpc
    · subst hp
      obtain rfl : e = e₁ := Option.some.inj he
      exact .dec hpc
  · simp at h

theorem step_cases {a : EndpointAct} (h : e.step role sockfd a = some e') :
    Transition role sockfd e a e' := by
  cases a with
  | arrive bytes =>
    simp only [step, Option.ite_none_right_eq_some, Option.some.injEq] at h
    obtain ⟨hne, rfl⟩ := h
    exact .arrive hne
  | fin => exact Option.some.inj h ▸ .fin
  | reset => exact Option.some.inj h ▸ .reset
  | drain k =>
    simp only [step] at h
    split at h
    · rename_i hr
      exact Option.some.inj h ▸ .drainEmpty hr
    · rename_i hr
      exact Option.some.inj h ▸ .drain hr
  | wake =>
    simp only [step, Option.ite_none_right_eq_some, Option.some.injEq] at h
    exact h.2 ▸ .wake h.1
  | add =>
    simp only [step, Option.ite_none_right_eq_some, Option.some.injEq] at h
    obtain ⟨⟨ho, hm, hpc⟩, rfl⟩ := h
    exact .add ho hm hpc
  | wait =>
    simp only [step, Option.ite_none_right_eq_some] at h
    obtain ⟨⟨hpc, -⟩, h⟩ := h
    obtain ⟨m, hm, rfl⟩ := Option.map_eq_some_iff.mp h
    split
    · exact .skip hpc hm ‹_›
    · exact .report hpc hm ‹_›
  | begin nRet =>
    simp only [step] at h
    split at h
    · exact Option.some.inj h ▸ .begin ‹_›
    · simp at h
  | handle act => exact handle_cases h

/-- What a stage of a handler that watches `events` carries. -/
def Fits (events : BitVec 32) : Stage → Prop
  | .recvn r => r.Filling ∧ has events EPOLLOUT = false
  | .sendn s => s.Sending
  | _ => True

theorem fits_afterWrite {events events' : BitVec 32} {nRet : ℤ} :
    ∀ stage ∈ afterWrite events nRet, Fits events' stage := by
  unfold afterWrite afterError
  split_ifs <;> simp [Fits]

theorem fits_afterRead {events events' : BitVec 32} {nRet : ℤ} :
    ∀ stage ∈ afterRead events nRet, Fits events' stage := by
  unfold afterRead
  split
  · simp [Fits]
  · exact fits_afterWrite

/-- Masks name one direction, reported events stay within the mask, the loops
of `recvn` and `sendn` are inside, and the decrement comes after the `close`. -/
structure Wf (e : Endpoint) : Prop where
  mask : ∀ m, e.mask = some m →
    e.opened = true ∧ (has m EPOLLIN = true → has m EPOLLOUT = false)
  reported : ∀ events, e.pc = .reported events →
    ∃ m, e.mask = some m ∧ ∀ flags, has events flags = true → has m flags = true
  stage : ∀ events stage, e.pc = .handling events stage →
    Fits events stage ∧ (stage = .dec → e.opened = false)

namespace Wf

/-- A step that leaves the worker, the mask and the descriptor alone. -/
theorem keep (h : e.Wf) (hpc : e'.pc = e.pc) (hm : e'.mask = e.mask)
    (ho : e'.opened = e.opened) : e'.Wf where
  mask m hm' := ho ▸ h.mask m (hm ▸ hm')
  reported events hp := by
    obtain ⟨m, hm', hf⟩ := h.reported events (hpc ▸ hp)
    exact ⟨m, hm.trans hm', hf⟩
  stage events stage hp := ho ▸ h.stage events stage (hpc ▸ hp)

theorem install (h : e.Wf) (ho : e.opened = true) {m : BitVec 32}
    (hm : has m EPOLLIN = true → has m EPOLLOUT = false)
    (hpc : ∀ events, e.pc ≠ .reported events) : (e.install m).Wf where
  mask m' hm' := by
    obtain rfl := Option.some.inj hm'
    exact ⟨ho, hm⟩
  reported events hp := (hpc events hp).elim
  stage events stage hp := h.stage events stage hp

theorem changeMode (h : e.Wf) {ok : Bool} {m events : BitVec 32} {stage : Stage}
    (hpc : e.pc = .handling events stage) (hsome : ok = true → e.mask.isSome = true)
    (hm : has m EPOLLIN = true → has m EPOLLOUT = false) :
    (if ok then e.install m else e).Wf := by
  cases ok with
  | false => exact h
  | true =>
    obtain ⟨m', hm'⟩ := Option.isSome_iff_exists.mp (hsome rfl)
    exact h.install (h.mask m' hm').1 hm (by simp [hpc])

theorem resume (h : e.Wf) {events : BitVec 32} {p : Pass}
    (hfit : ∀ stage ∈ p.stage, Fits events stage)
    (hdec : ∀ stage ∈ p.stage, StillRegistered stage) : (e.resume events p).Wf := by
  unfold Endpoint.resume
  cases hp : p.stage with
  | none => exact ⟨h.mask, by simp, by simp⟩
  | some stage =>
    refine ⟨h.mask, by simp, fun events' stage' hpc => ?_⟩
    obtain ⟨rfl, rfl⟩ := EndpointPc.handling.inj hpc
    exact ⟨hfit _ hp, fun he => by subst he; exact (hdec _ hp).elim⟩

theorem begin (h : e.Wf) {events : BitVec 32} {nRet : ℤ} (hpc : e.pc = .reported events) :
    (e.resume events ⟨beginEvent events nRet, nRet⟩).Wf := by
  apply h.resume _ stillRegistered_beginEvent
  intro stage hs
  obtain ⟨m, hm, hf⟩ := h.reported events hpc
  unfold beginEvent at hs
  split at hs
  · rename_i hin
    obtain rfl := Option.some.inj hs
    refine ⟨Recvn.filling_start, ?_⟩
    by_contra hout
    have hno := (h.mask m hm).2 (hf _ hin)
    simp [hf _ (Bool.eq_true_of_not_eq_false hout)] at hno
  · exact fits_afterRead stage hs

theorem recv (h : e.Wf) {events : BitVec 32} {r : Recvn} {res : RecvResult} {errno : ℤ}
    {rcvq : List Byte} (hpc : e.pc = .handling events (.recvn r)) (ha : r.Admits res) :
    ({ e with rcvq := rcvq }.resume events
      (Stage.ofRecvn events e.nRet (r.recv res errno))).Wf := by
  obtain ⟨hfill, hout⟩ := (h.stage _ _ hpc).1
  have h' : { e with rcvq := rcvq }.Wf := h.keep rfl rfl rfl
  apply h'.resume _ stillRegistered_ofRecvn
  intro stage hs
  rcases ofRecvn_cases hfill ha errno events e.nRet with ⟨r', hr, -, hp⟩ | ⟨-, hp⟩ | ⟨-, hp⟩ <;>
    rw [hp] at hs
  · exact Option.some.inj hs ▸ ⟨hr, hout⟩
  · exact Option.some.inj hs ▸ trivial
  · exact fits_afterRead stage hs

theorem send (h : e.Wf) {events : BitVec 32} {s : Sendn} {res : SendResult} {errno : ℤ}
    {room : ℕ} (hpc : e.pc = .handling events (.sendn s)) (ha : s.Admits res) :
    ({ e with room := room }.resume events
      (Stage.ofSendn events e.nRet (s.send res errno))).Wf := by
  have hsend := (h.stage _ _ hpc).1
  have h' : { e with room := room }.Wf := h.keep rfl rfl rfl
  apply h'.resume _ stillRegistered_ofSendn
  intro stage hs
  rcases ofSendn_cases hsend ha errno events e.nRet with ⟨s', hs', hp⟩ | ⟨-, -, hp⟩ | hp <;>
    rw [hp] at hs
  · exact Option.some.inj hs ▸ hs'
  · exact Option.some.inj hs ▸ trivial
  · exact fits_afterWrite stage hs

theorem step (h : e.Wf) {a : EndpointAct} (ht : Transition role sockfd e a e') : e'.Wf := by
  cases ht with
  | arrive | fin | reset | drainEmpty | drain | wake => exact h.keep rfl rfl rfl
  | add ho hm hpc => exact h.install ho (by cases role <;> decide) (by simp [hpc])
  | skip => exact h.keep rfl rfl rfl
  | report hpc hm hne =>
    refine ⟨h.mask, fun events he => ⟨_, hm, fun flags hf => ?_⟩, by simp⟩
    obtain rfl := EndpointPc.reported.inj he
    exact has_of_and hf
  | begin hpc => exact h.begin hpc
  | recv hpc ha => exact h.recv hpc ha
  | changeToWrite hpc hm he =>
    subst he
    exact (h.changeMode hpc hm (by decide)).resume fits_afterRead stillRegistered_afterRead
  | format hpc hlen =>
    have hs := (Sendn.test_start (message_ne_nil role sockfd _) hlen).2
    exact h.resume (by simpa [Fits] using hs) (by simp [StillRegistered])
  | send hpc ha => exact h.send hpc ha
  | changeToRead hpc hm he =>
    subst he
    exact (h.changeMode hpc hm (by decide)).resume fits_afterWrite stillRegistered_afterWrite
  | error => exact h.resume (by simp [Fits]) (by simp [StillRegistered])
  | @del events ok e₁ hpc he =>
    refine ⟨fun m hm => ?_, by simp, fun events' stage hp => ?_⟩
    · subst he
      cases ok with
      | false => exact h.mask m hm
      | true => simp at hm
    · obtain ⟨rfl, rfl⟩ := EndpointPc.handling.inj hp
      exact ⟨trivial, by simp⟩
  | close hpc =>
    refine ⟨by simp, fun events hp => ?_, fun events stage hp => ⟨?_, fun _ => rfl⟩⟩ <;>
      cases role <;> simp [Endpoint.resume] at hp
    exact hp.2 ▸ trivial
  | dec hpc => exact h.resume (by simp) (by simp)

theorem of_start (h : e.Start) : e.Wf :=
  ⟨by simp [h.mask], by simp [h.pc], by simp [h.pc]⟩

theorem of_reaches {tr : List EndpointAct} (h : (endpointMachine role sockfd).Reaches tr e) :
    e.Wf :=
  h.invariant of_start fun hs hstep => hs.step (step_cases hstep)

end Wf

end Endpoint
end EpollThreads.Connection
