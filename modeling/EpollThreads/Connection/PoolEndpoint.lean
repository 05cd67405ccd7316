import EpollThreads.Connection.Pool
import EpollThreads.Foundations.Observation

/-!
# Every connection of the pool is an endpoint

What the listener, one worker and the network do to one connection, taken out of
a run of the whole server, is a run of its endpoint. Numbers that are closed
and given out again, the batches of the workers and the other connections in
them do not show there: only that an event may have to wait for its turn.
-/

namespace EpollThreads.Connection

open Foundations Events Dispatch

/-- The turn of an event comes in the batch. -/
def EndpointAct.begins : EndpointAct → Bool
  | .begin _ => true
  | _ => false

/-- A run without the turns of its events. -/
def visible (tr : List EndpointAct) : List EndpointAct := tr.filter fun a => !a.begins

@[simp] theorem visible_nil : visible [] = [] := rfl

@[simp] theorem visible_append (tr tr' : List EndpointAct) :
    visible (tr ++ tr') = visible tr ++ visible tr' :=
  List.filter_append ..

theorem visible_outside {a : EndpointAct} (h : a.outside = true) : visible [a] = [a] := by
  cases a with
  | arrive | fin | reset | drain | wake => rfl
  | add | wait | begin | handle => cases h

/-- Where the connection is in the rest of a batch. -/
def queued (c : Conn) : List Event → EndpointPc
  | [] => .idle
  | ev :: rest => if ev.conn = c then .reported ev.events else queued c rest

/-- What the thread of a worker is at with the connection. -/
def position (c : Conn) : WorkerPc → EndpointPc
  | .event ev stage rest => if ev.conn = c then .handling ev.events stage else queued c rest
  | _ => .idle

theorem queued_of_notMem {c : Conn} {events : List Event} (h : ∀ ev ∈ events, ev.conn ≠ c) :
    queued c events = .idle := by
  induction events with
  | nil => rfl
  | cons ev rest ih =>
    rw [queued, if_neg (h ev List.mem_cons_self)]
    exact ih fun ev' hev => h ev' (List.mem_cons_of_mem _ hev)

theorem queued_of_mem {ev : Event} {events : List Event} (hnd : (events.map Event.conn).Nodup)
    (h : ev ∈ events) : queued ev.conn events = .reported ev.events := by
  induction events with
  | nil => cases h
  | cons ev' rest ih =>
    obtain ⟨hno, hnd⟩ := List.nodup_cons.mp hnd
    rcases List.mem_cons.mp h with rfl | h
    · exact if_pos rfl
    · have hne : ev'.conn ≠ ev.conn := fun he => hno (he ▸ List.mem_map_of_mem h)
      rw [queued, if_neg hne]
      exact ih hnd h

theorem queued_ne_handling {c : Conn} {events : List Event} {m : BitVec 32} {stage : Stage} :
    queued c events ≠ .handling m stage := by
  induction events with
  | nil => simp [queued]
  | cons ev rest ih =>
    rw [queued]
    split
    · simp
    · exact ih

theorem position_of_notMem {c : Conn} {pc : WorkerPc} (h : ∀ ev ∈ pc.batch, ev.conn ≠ c) :
    position c pc = .idle := by
  cases pc with
  | event ev stage rest =>
    rw [position, if_neg (h ev List.mem_cons_self)]
    exact queued_of_notMem fun ev' hev => h ev' (List.mem_cons_of_mem _ hev)
  | _ => rfl

namespace Endpoint

/-- What a `send` hands to the kernel. -/
def outputs (e : Endpoint) : EndpointAct → Option (List Byte)
  | .handle (.send res _) =>
      match e.pc with
      | .handling _ (.sendn s) => some (s.accepted res)
      | _ => none
  | _ => none

variable {role : Role} {sockfd : ℕ} {e e₁ : Endpoint}

/-- A call of a handler does to an endpoint what it does to its socket. -/
theorem effect_socket {stage : Stage} {act : HandlerAct}
    (h : (e.socket.under e.mask).effect stage act = some e₁) :
    ∃ e₂, e.effect stage act = some e₂ ∧ e₂.socket = e₁.socket ∧
      e₂.mask = maskAfter stage e.mask act ∧ (act ≠ .close → e₂.opened = e.opened) := by
  cases act with
  | recv res errno =>
    cases res with
    | data bytes =>
      simp only [effect, receive, Option.ite_none_right_eq_some, Option.some.injEq] at h ⊢
      obtain ⟨hpre, rfl⟩ := h
      exact ⟨_, ⟨hpre, rfl⟩, rfl, rfl, fun _ => rfl⟩
    | eof =>
      simp only [effect, receive, Option.ite_none_right_eq_some, Option.some.injEq] at h ⊢
      obtain ⟨heof, rfl⟩ := h
      exact ⟨_, ⟨heof, rfl⟩, rfl, rfl, fun _ => rfl⟩
    | fail => exact ⟨e, rfl, by rw [← Option.some.inj h]; rfl, rfl, fun _ => rfl⟩
  | send res errno =>
    cases res with
    | sent k =>
      simp only [effect, transmit, Option.ite_none_right_eq_some, Option.some.injEq] at h ⊢
      obtain ⟨hroom, rfl⟩ := h
      exact ⟨_, ⟨hroom, rfl⟩, rfl, rfl, fun _ => rfl⟩
    | fail => exact ⟨e, rfl, by rw [← Option.some.inj h]; rfl, rfl, fun _ => rfl⟩
  | mod ok =>
    cases ok with
    | true =>
      simp only [effect, Option.ite_none_right_eq_some, Option.some.injEq] at h ⊢
      obtain ⟨hsome, rfl⟩ := h
      exact ⟨_, ⟨hsome, rfl⟩, rfl, rfl, fun _ => rfl⟩
    | false => exact ⟨e, rfl, by rw [← Option.some.inj h]; rfl, rfl, fun _ => rfl⟩
  | del ok =>
    cases ok with
    | true =>
      simp only [effect, Option.ite_none_right_eq_some, Option.some.injEq] at h ⊢
      obtain ⟨hsome, rfl⟩ := h
      exact ⟨_, ⟨hsome, rfl⟩, rfl, rfl, fun _ => rfl⟩
    | false => exact ⟨e, rfl, by rw [← Option.some.inj h]; rfl, rfl, fun _ => rfl⟩
  | close => exact ⟨_, rfl, by rw [← Option.some.inj h]; rfl, rfl, fun hne => absurd rfl hne⟩
  | format usec => exact ⟨e, rfl, by rw [← Option.some.inj h]; rfl, rfl, fun _ => rfl⟩
  | error => exact ⟨e, rfl, by rw [← Option.some.inj h]; rfl, rfl, fun _ => rfl⟩
  | dec => exact ⟨e, rfl, by rw [← Option.some.inj h]; rfl, rfl, fun _ => rfl⟩

/-- Only the socket differs. -/
def SameWorker (e e' : Endpoint) : Prop :=
  e'.mask = e.mask ∧ e'.opened = e.opened ∧ e'.nRet = e.nRet ∧ e'.pc = e.pc

theorem outside_socket (role : Role) (sockfd : ℕ) {role' : Role} {sockfd' : ℕ} {a : EndpointAct}
    (ha : a.outside = true)
    (h : (e.socket.under e.mask).step role' sockfd' a = some e₁) :
    ∃ e₂, e.step role sockfd a = some e₂ ∧ e₂.socket = e₁.socket ∧ e.SameWorker e₂ := by
  cases a with
  | arrive bytes =>
    simp only [step, Option.ite_none_right_eq_some, Option.some.injEq] at h ⊢
    obtain ⟨hne, rfl⟩ := h
    exact ⟨_, ⟨hne, rfl⟩, rfl, rfl, rfl, rfl, rfl⟩
  | fin => exact ⟨_, rfl, by rw [← Option.some.inj h]; rfl, rfl, rfl, rfl, rfl⟩
  | reset => exact ⟨_, rfl, by rw [← Option.some.inj h]; rfl, rfl, rfl, rfl, rfl⟩
  | drain k =>
    by_cases hr : e.room = 0
    · have hr' : (e.socket.under e.mask).room = 0 := hr
      simp only [step, if_pos hr', if_pos hr, Option.some.injEq] at h ⊢
      subst h
      exact ⟨_, rfl, rfl, rfl, rfl, rfl, rfl⟩
    · have hr' : (e.socket.under e.mask).room ≠ 0 := hr
      simp only [step, if_neg hr', if_neg hr, Option.some.injEq] at h ⊢
      subst h
      exact ⟨_, rfl, rfl, rfl, rfl, rfl, rfl⟩
  | wake =>
    simp only [step, Option.ite_none_right_eq_some, Option.some.injEq] at h ⊢
    obtain ⟨hsome, rfl⟩ := h
    exact ⟨_, ⟨hsome, rfl⟩, rfl, rfl, rfl, rfl, rfl⟩
  | add | wait | begin | handle => cases ha

/-- The worker goes on in its batch, past the events that have nothing to do. -/
theorem run_dispatch (role : Role) (sockfd : ℕ) {c : Conn} {events : List Event} (nRet : ℤ)
    (hnd : (events.map Event.conn).Nodup) (hpc : e.pc = queued c events) :
    ∃ tr e', (endpointMachine role sockfd).Run e tr e' ∧ visible tr = [] ∧
      e'.socket = e.socket ∧ e'.mask = e.mask ∧ e'.opened = e.opened ∧
      e'.pc = position c (.dispatch nRet events) ∧
      ∀ events stage, e'.pc = .handling events stage → e'.nRet = nRet := by
  induction events generalizing e with
  | nil =>
    refine ⟨[], e, .nil e, rfl, rfl, rfl, rfl, hpc, fun events stage hs => ?_⟩
    rw [hpc] at hs
    cases hs
  | cons ev rest ih =>
    obtain ⟨hno, hnd⟩ := List.nodup_cons.mp hnd
    by_cases hc : ev.conn = c
    · subst hc
      have hrest : ∀ ev' ∈ rest, ev'.conn ≠ ev.conn := fun ev' hev he =>
        hno (he ▸ List.mem_map_of_mem hev)
      have hreported : e.pc = .reported ev.events := hpc.trans (if_pos rfl)
      have hstep : e.step role sockfd (.begin nRet) =
          some (e.resume ev.events ⟨beginEvent ev.events nRet, nRet⟩) := by
        simp [step, hreported]
      have hrun : (endpointMachine role sockfd).Run e [.begin nRet] _ := .single hstep
      refine ⟨_, _, hrun, rfl, rfl, rfl, rfl, ?_, fun _ _ _ => rfl⟩
      cases hb : beginEvent ev.events nRet with
      | none =>
        have hidle : position ev.conn (.dispatch nRet rest) = .idle :=
          position_of_notMem fun ev' hev =>
            hrest ev' ((WorkerPc.dispatch_spec _ _).1.subset hev)
        simp only [resume, WorkerPc.dispatch, hb]
        exact hidle.symm
      | some stage => simp [resume, WorkerPc.dispatch, hb, position]
    · have hqueued : e.pc = queued c rest := hpc.trans (if_neg hc)
      cases hb : beginEvent ev.events nRet with
      | none =>
        simp only [WorkerPc.dispatch, hb]
        exact ih hnd hqueued
      | some stage =>
        refine ⟨[], e, .nil e, rfl, rfl, rfl, rfl, ?_, fun events stage' hs => ?_⟩
        · simp only [WorkerPc.dispatch, hb, position, if_neg hc]
          exact hqueued
        · rw [hqueued] at hs
          exact absurd hs queued_ne_handling

theorem record_outputs_eq_nil {tr : List EndpointAct} (h : ∀ act, .handle act ∉ visible tr) :
    (endpointMachine role sockfd).record outputs e tr = [] := by
  refine Machine.record_eq_nil fun a ha u => ?_
  cases a with
  | handle act => exact (h act (List.mem_filter.mpr ⟨ha, rfl⟩)).elim
  | _ => rfl

/-- A handler that is at the connection goes on before any other event gets its turn. -/
theorem record_outputs_handle {tr : List EndpointAct} {e' : Endpoint} {events : BitVec 32}
    {stage : Stage} {act : HandlerAct}
    (hpc : e.pc = .handling events stage) (hvis : visible tr = [.handle act])
    (hrun : (endpointMachine role sockfd).Run e tr e') :
    (endpointMachine role sockfd).record outputs e tr =
      (e.outputs (.handle act)).toList := by
  cases tr with
  | nil => cases hvis
  | cons b tr =>
    obtain ⟨u, hstep, -⟩ := hrun.first
    have hb : b.begins = false := by
      cases b with
      | begin nRet =>
        have hno : (endpointMachine role sockfd).step e (.begin nRet) = none := by
          simp [endpointMachine, step, hpc]
        rw [hno] at hstep
        cases hstep
      | _ => rfl
    have hcons : visible (b :: tr) = b :: visible tr := List.filter_cons_of_pos (by simp [hb])
    obtain ⟨rfl, hrest⟩ := List.cons.inj (hcons.symm.trans hvis)
    have hnil : (endpointMachine role sockfd).record outputs u tr = [] :=
      record_outputs_eq_nil (by simp [hrest])
    rw [Machine.record, hstep, Option.elim_some, hnil, List.append_nil]

end Endpoint
end EpollThreads.Connection
