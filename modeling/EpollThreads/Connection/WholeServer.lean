import EpollThreads.Connection.PoolRun
import EpollThreads.Connection.Replies
import EpollThreads.Connection.Work
import EpollThreads.Dispatch.Accounting

/-!
# Every connection of the whole server

What holds of an endpoint holds of each connection of the server, however many
others its worker serves in between: when it is ready it is reported, the
bytes that are taken from it are its own, it is sent whole messages, and no
worker spins on it.
-/

namespace EpollThreads.Connection

open Foundations Events Dispatch

theorem flatMap_visible {f : EndpointAct → List Byte} (h : ∀ nRet, f (.begin nRet) = [])
    (tr : List EndpointAct) : (visible tr).flatMap f = tr.flatMap f := by
  induction tr with
  | nil => rfl
  | cons a tr ih =>
    rw [← List.singleton_append, visible_append, List.flatMap_append, ih, List.flatMap_append]
    cases a with
    | begin nRet => simp [visible, EndpointAct.begins, h]
    | _ => rfl

theorem price_visible (tr : List EndpointAct) :
    Machine.price EndpointAct.pays (visible tr) = Machine.price EndpointAct.pays tr := by
  induction tr with
  | nil => rfl
  | cons a tr ih =>
    rw [← List.singleton_append, visible_append, Machine.price_append, ih, Machine.price_append]
    cases a with
    | begin nRet => rfl
    | _ => rfl

theorem countP_visible_le (p : EndpointAct → Bool) (tr : List EndpointAct) :
    (visible tr).countP p ≤ tr.countP p :=
  List.filter_sublist.countP_le

theorem ctlOk_of_visible {tr : List EndpointAct} (h : ∀ a ∈ visible tr, a.CtlOk) :
    ∀ a ∈ tr, a.CtlOk := by
  intro a ha
  cases hb : a.begins with
  | true =>
    cases a with
    | begin => trivial
    | _ => cases hb
  | false => exact h a (List.mem_filter.mpr ⟨ha, by simp [hb]⟩)

namespace Endpoint

variable {e : Endpoint} {m : BitVec 32}

theorem readable_of_has (h : has (e.ready &&& m) EPOLLIN = true) : e.readable = true := by
  by_contra hr
  have hin : has e.ready EPOLLIN = true := has_of_and (by rwa [BitVec.and_comm] at h)
  simp [has, ready_in, hr] at hin

theorem writable_of_has (h : has (e.ready &&& m) EPOLLOUT = true) : e.writable = true := by
  by_contra hr
  have hout : has e.ready EPOLLOUT = true := has_of_and (by rwa [BitVec.and_comm] at h)
  simp [has, ready_out, hr] at hout

theorem Watched.pending (h : e.Watched) (hpc : e.pc = .idle) (hopen : e.opened = true)
    (hm : e.mask = some m)
    (hready : has (e.ready &&& m) EPOLLIN = true ∨ has (e.ready &&& m) EPOLLOUT = true) :
    e.pending = true := by
  obtain ⟨hin, hout⟩ := h.idle hpc hopen m hm
  rcases hready with hready | hready
  · simpa using hin (has_of_and hready) (readable_of_has hready)
  · simpa using hout (has_of_and hready) (writable_of_has hready)

end Endpoint

namespace Pool

variable {n : ℕ} {maxclients : ℤ} {s₀ s : Pool n} {tr : List (PoolAct n)} {w : Fin n} {fd : Fd}

/-- The run of an endpoint behind what is seen of a connection, served or not. -/
theorem exists_traces (h₀ : s₀.Start) (hrun : (poolMachine n maxclients).Run s₀ tr s) (c : Conn) :
    ∃ fd tr' e, Traces maxclients s₀ tr c fd tr' e ∧ e.socket = s.socket c ∧
      ∀ fd' ∈ (Server.acceptedFds (tr.filterMap PoolAct.call))[c]?, fd' = fd := by
  rcases endpoint_run h₀ hrun c with ⟨-, hrest⟩ | ⟨fd, w, tr', e, hfd, htr', h⟩
  · obtain ⟨tr', htr'⟩ := hrest ((Server.acceptedFds (tr.filterMap PoolAct.call))[c]?.getD 0)
    exact ⟨_, tr', _, htr', rfl, fun fd' hfd' => by rw [hfd']; rfl⟩
  · exact ⟨fd, tr', e, htr', h.socket, fun fd' hfd' => Option.some.inj (hfd'.symm.trans hfd)⟩

/-- While no `epoll_ctl` fails for a connection, `epoll_wait` of its worker has it to report as
soon as it is ready in the direction it is registered for. -/
theorem reported_of_ready (h₀ : s₀.Start) (hrun : (poolMachine n maxclients).Run s₀ tr s)
    (hreg : fd ∈ (s.server.workers w).registered)
    (hok : ∀ a ∈ (poolMachine n maxclients).record
      (seen ((s.server.workers w).interest fd).conn) s₀ tr, a.CtlOk)
    (hpc : (s.server.workers w).pc = .wait)
    (hready : has (s.polled (s.server.workers w) fd) EPOLLIN = true ∨
      has (s.polled (s.server.workers w) fd) EPOLLOUT = true) :
    (s.step maxclients
      (.server (.wait w [(fd, s.polled (s.server.workers w) fd)]))).isSome = true := by
  have ho : s.server.Owned := .of_reaches (server_reaches h₀ hrun)
  have hopened : s.server.Opened := .of_reaches (server_reaches h₀ hrun)
  rcases endpoint_run h₀ hrun ((s.server.workers w).interest fd).conn with
    ⟨hun, -⟩ | ⟨fd', w', tr', e, -, htr', h⟩
  · exact absurd rfl ((hun w).1 fd hreg)
  · obtain ⟨rfl, rfl, hopen, hmask⟩ := h.registered ho hreg rfl
    have hctl : ∀ a ∈ tr', a.CtlOk := ctlOk_of_visible (htr'.seen ▸ hok)
    have hwatched : e.Watched := .of_reaches ⟨_, start_under h₀ _, htr'.run⟩ hctl
    have hidle : e.pc = .idle := by rw [h.pc, hpc]; rfl
    have hpolled : s.polled (s.server.workers w) fd =
        e.ready &&& ((s.server.workers w).interest fd).events := by
      rw [polled, ← h.socket]
      rfl
    have hne : s.polled (s.server.workers w) fd ≠ 0 := by
      intro hz
      simp [hz] at hready
    have hpending : (s.socket ((s.server.workers w).interest fd).conn).pending = true := by
      rw [← h.socket]
      exact hwatched.pending hidle hopen hmask (hpolled ▸ hready)
    have hfd : (s.server.workers w).epfd ≠ -1 := by
      intro hfail
      simp [hopened w hfail] at hreg
    simpa [Pool.step, Server.step, Server.waitStep, answer, Reports, hpc, hreg, hfd, hpending]
      using hne

/-- An idle pool of two workers; no connection has been asked for. -/
def idlePool : Pool 2 := ⟨Server.initial 2, fun _ => ⟨[], false, false, 100, false⟩⟩

theorem start_idlePool : idlePool.Start := ⟨Server.start_initial, fun _ => rfl⟩

/-- A byte is sent on the first connection before its `accept`, and worker `w` gets it. -/
def earlyByte (w : Fin 2) : List (PoolAct 2) :=
  [.away 0 (.arrive [72])] ++ (Server.connect 7).map .server ++ [.server (.workerTest w)]

theorem reported_of_ready_earlyByte :
    ∃ s : Pool 2, (poolMachine 2 10).Run idlePool (earlyByte 1) s ∧
      (s.step 10 (.server (.wait 1 [(7, s.polled (s.server.workers 1) 7)]))).isSome = true := by
  have hrun := Machine.Run.of_isSome (M := poolMachine 2 10) (s := idlePool)
    (earlyByte 1) (by decide)
  refine ⟨_, hrun, reported_of_ready start_idlePool hrun (by decide) ?_ (by decide) (by decide)⟩
  have hseen : (poolMachine 2 10).record (seen 0) idlePool (earlyByte 1) =
      [.arrive [72], .add] := by decide
  intro a ha
  have ha' : a ∈ (poolMachine 2 10).record (seen 0) idlePool (earlyByte 1) := ha
  obtain rfl | rfl : a = .arrive [72] ∨ a = .add := by simpa [hseen] using ha'
  · trivial
  · trivial

/-- From the start on, the steps of the worker for one connection are paid for by its bytes, its
edges and the transfers that are repeated. -/
theorem worker_steps_le (h₀ : s₀.Start) (hrun : (poolMachine n maxclients).Run s₀ tr s)
    (c : Conn) {acts : List EndpointAct}
    (hacts : acts = (poolMachine n maxclients).record (seen c) s₀ tr) :
    acts.countP EndpointAct.works ≤
      byteWork * ((s₀.socket c).rcvq.length + (acts.map EndpointAct.bytes).sum) +
        edgeWork * acts.countP EndpointAct.edge + acts.countP EndpointAct.retries := by
  obtain ⟨fd, tr', e, htr', -, -⟩ := exists_traces h₀ hrun c
  have hw : ((s₀.socket c).under none).Wf := .of_start (start_under h₀ c)
  have hpaid := (htr'.run.affords (c := fun a => if a.works then 1 else 0) hw fun hw hstep =>
    ⟨hw.step (Endpoint.step_cases hstep), Endpoint.work_step hw hstep⟩).2
  have hstart : ((s₀.socket c).under none).work = byteWork * (s₀.socket c).rcvq.length := rfl
  have hcount := countP_visible_le EndpointAct.works tr'
  rw [Machine.price_eq_countP, ← price_visible, price_pays, hstart] at hpaid
  rw [htr'.seen, ← hacts] at hpaid hcount
  rw [Nat.mul_add]
  omega

/-- It answers and reads that byte; meanwhile another one arrives on the next connection. -/
def crossing (w : Fin 2) : List (PoolAct 2) :=
  earlyByte w ++ [.server (.wait w [(7, EPOLLOUT)]), .away 1 (.arrive [73]),
    .server (.handle w (.format 1)), .server (.handle w (.send (.sent 14) 0)),
    .server (.handle w (.mod true)), .server (.workerTest w),
    .server (.wait w [(7, EPOLLIN)]), .server (.handle w (.recv (.data [72]) 0))]

theorem worker_steps_le_crossing :
    ∃ acts : List EndpointAct, acts = (poolMachine 2 10).record (seen 0) idlePool (crossing 1) ∧
      acts.countP EndpointAct.works = 6 ∧ acts.countP EndpointAct.works ≤
        byteWork * ((idlePool.socket 0).rcvq.length + (acts.map EndpointAct.bytes).sum) +
          edgeWork * acts.countP EndpointAct.edge + acts.countP EndpointAct.retries := by
  have hrun := Machine.Run.of_isSome (M := poolMachine 2 10) (s := idlePool)
    (crossing 1) (by decide)
  exact ⟨_, rfl, by decide, worker_steps_le start_idlePool hrun 0 rfl⟩

/-- What the calls of `recv` on a connection have taken, and what is left in its queue, is what
was there before and what the peer has sent since. -/
theorem received_eq (h₀ : s₀.Start) (hrun : (poolMachine n maxclients).Run s₀ tr s) (c : Conn) :
    ((poolMachine n maxclients).record (seen c) s₀ tr).flatMap Endpoint.input ++
        (s.socket c).rcvq =
      (s₀.socket c).rcvq ++
        ((poolMachine n maxclients).record (seen c) s₀ tr).flatMap EndpointAct.arrived := by
  obtain ⟨fd, tr', e, htr', hsocket, -⟩ := exists_traces h₀ hrun c
  have hrcvq : e.rcvq = (s.socket c).rcvq := congrArg Socket.rcvq hsocket
  rw [← htr'.seen, flatMap_visible (fun _ => rfl), flatMap_visible (fun _ => rfl), ← hrcvq]
  exact Endpoint.input_run htr'.run

theorem received_eq_crossing :
    ∃ s : Pool 2, (poolMachine 2 10).Run idlePool (crossing 1) s ∧ (s.socket 1).rcvq = [73] ∧
      ((poolMachine 2 10).record (seen 0) idlePool (crossing 1)).flatMap Endpoint.input = [72] ∧
      ((poolMachine 2 10).record (seen 0) idlePool (crossing 1)).flatMap Endpoint.input ++
          (s.socket 0).rcvq =
        (idlePool.socket 0).rcvq ++ ((poolMachine 2 10).record (seen 0) idlePool
          (crossing 1)).flatMap EndpointAct.arrived := by
  have hrun := Machine.Run.of_isSome (M := poolMachine 2 10) (s := idlePool)
    (crossing 1) (by decide)
  exact ⟨_, hrun, by decide, by decide, received_eq start_idlePool hrun 0⟩

/-- On each connection the workers have sent whole messages, with the number that its `accept`
returned, and at most a part of one more. Unless an `epoll_ctl` failed for it, they have sent
one message at most for each byte they took from it, and the first. -/
theorem sent_eq_messages (h₀ : s₀.Start) (hrun : (poolMachine n maxclients).Run s₀ tr s)
    (c : Conn) {acts : List EndpointAct}
    (hacts : acts = (poolMachine n maxclients).record (seen c) s₀ tr) :
    ∃ (fd : Fd) (usecs : List ℕ) (part : List Byte) (usec : ℕ),
      (∀ fd' ∈ (Server.acceptedFds (tr.filterMap PoolAct.call))[c]?, fd' = fd) ∧
      part <+: message .taskThread fd usec ∧
      ((poolMachine n maxclients).record (outputs c) s₀ tr).flatten =
        (usecs.map (message .taskThread fd)).flatten ++ part ∧
      ((∀ a ∈ acts, a.CtlOk) → usecs.length ≤ 1 + (acts.flatMap Endpoint.input).length) := by
  obtain ⟨fd, tr', e, htr', -, hfd⟩ := exists_traces h₀ hrun c
  obtain ⟨-, k, hframed, hpaid⟩ := Endpoint.framed_run (start_under h₀ c) htr'.run
  rw [htr'.outputs] at hframed
  obtain ⟨usecs, part, usec, hk, hpart, hout⟩ := hframed.messages
  refine ⟨fd, usecs, part, usec, hfd, hpart, hout, fun hok => ?_⟩
  rw [hacts, ← htr'.seen] at hok
  have hle := (hpaid (ctlOk_of_visible hok)).1
  rw [hacts, ← htr'.seen, flatMap_visible fun _ => rfl]
  omega

theorem sent_eq_messages_crossing :
    ((poolMachine 2 10).record (outputs 0) idlePool (crossing 1)).flatten =
        message .taskThread 7 1 ∧
      ∃ (s : Pool 2) (fd : Fd) (usecs : List ℕ) (part : List Byte) (usec : ℕ),
        (poolMachine 2 10).Run idlePool (crossing 1) s ∧
        fd = 7 ∧ part <+: message .taskThread fd usec ∧
        ((poolMachine 2 10).record (outputs 0) idlePool (crossing 1)).flatten =
          (usecs.map (message .taskThread fd)).flatten ++ part ∧ usecs.length ≤ 2 := by
  have hrun := Machine.Run.of_isSome (M := poolMachine 2 10) (s := idlePool)
    (crossing 1) (by decide)
  have hseen : [.arrive [72], .add, .wait, .handle (.format 1), .handle (.send (.sent 14) 0),
      .handle (.mod true), .wait, .handle (.recv (.data [72]) 0)] =
      (poolMachine 2 10).record (seen 0) idlePool (crossing 1) := by decide
  obtain ⟨fd, usecs, part, usec, hfd, hpart, hout, hle⟩ :=
    sent_eq_messages start_idlePool hrun 0 hseen
  exact ⟨by decide, _, fd, usecs, part, usec, hrun, (hfd 7 (by decide)).symm, hpart, hout,
    hle (by simp [EndpointAct.CtlOk])⟩

end Pool
end EpollThreads.Connection
