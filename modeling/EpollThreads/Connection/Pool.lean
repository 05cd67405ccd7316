import EpollThreads.Connection.Endpoint
import EpollThreads.Dispatch.Serving

/-!
# The sockets of the worker pool

`Server` lets the kernel answer every call in any way, `Endpoint` follows one
socket and one worker. Here the calls of the whole server are answered out of
its sockets: `epoll_wait` reports what is on the ready list of that worker,
`recv` takes what is in the queue, and every `epoll_ctl` polls the socket it
names. A socket is there before its `accept`, so bytes may wait for it.
-/

namespace EpollThreads.Connection

open Foundations Events Dispatch

/-- What the kernel keeps of a connection besides its registration. -/
structure Socket where
  rcvq : List Byte
  eof : Bool
  reset : Bool
  room : ℕ
  pending : Bool
  deriving DecidableEq, Repr

/-- The socket under a mask, with no worker at it. -/
def Socket.under (x : Socket) (mask : Option (BitVec 32)) : Endpoint :=
  ⟨x.rcvq, x.eof, x.reset, x.room, mask, x.pending, true, -1, .idle⟩

def Endpoint.socket (e : Endpoint) : Socket := ⟨e.rcvq, e.eof, e.reset, e.room, e.pending⟩

/-- What the peer and the network do to a socket. -/
def EndpointAct.outside : EndpointAct → Bool
  | .arrive _ | .fin | .reset | .drain _ | .wake => true
  | _ => false

structure Pool (n : ℕ) where
  server : Server n
  socket : Conn → Socket

/-- `peer` acts on a registered socket and `away` on any other; `skip` is an entry of the ready
list for which `epoll_wait` finds nothing to report. -/
inductive PoolAct (n : ℕ)
  | server (a : Action n)
  | skip (w : Fin n) (fd : Fd)
  | peer (w : Fin n) (fd : Fd) (a : EndpointAct)
  | away (c : Conn) (a : EndpointAct)
  deriving DecidableEq, Repr

/-- The step of a thread of the server. -/
def PoolAct.call {n : ℕ} : PoolAct n → Option (Action n)
  | .server a => some a
  | _ => none

namespace Pool

variable {n : ℕ}

/-- What polling the socket behind a registration of the worker returns. -/
def polled (s : Pool n) (x : Worker) (fd : Fd) : BitVec 32 :=
  ((s.socket (x.interest fd).conn).under none).ready &&& (x.interest fd).events

/-- The entry is on the ready list, and this is what `epoll_wait` reports for it. -/
def Reports (s : Pool n) (x : Worker) (p : Fd × BitVec 32) : Prop :=
  (s.socket (x.interest p.1).conn).pending = true ∧ p.2 = s.polled x p.1 ∧ p.2 ≠ 0

instance (s : Pool n) (x : Worker) (p : Fd × BitVec 32) : Decidable (s.Reports x p) :=
  inferInstanceAs (Decidable (_ ∧ _ ∧ _))

/-- The sockets after `epoll_wait` has taken these entries off the ready list. -/
def unlisted (s : Pool n) (x : Worker) (fds : List Fd) (c : Conn) : Socket :=
  if c ∈ fds.map fun fd => (x.interest fd).conn then { s.socket c with pending := false }
  else s.socket c

def setSocket (s : Pool n) (c : Conn) (e : Endpoint) : Conn → Socket :=
  Function.update s.socket c e.socket

/-- The sockets after a step of the server. None if they do not answer its call that way. -/
def answer (s : Pool n) : Action n → Option (Conn → Socket)
  | .assign (.add true) =>
      match s.server.listener with
      | .assigning sockfd _ => (s.server.files sockfd).map fun c =>
          s.setSocket c (((s.socket c).under none).install (addEvents .write .edgeTriggered))
      | _ => none
  | .wait w batch =>
      let x := s.server.workers w
      if ∀ p ∈ batch, s.Reports x p then some (s.unlisted x (batch.map Prod.fst)) else none
  | .handle w act =>
      let x := s.server.workers w
      match x.pc with
      | .event ev stage _ =>
          match s.server.files ev.fd with
          | some c => (((s.socket c).under (x.mask ev.fd c)).effect stage act).map (s.setSocket c)
          | none => some s.socket
      | _ => none
  | _ => some s.socket

def step (maxclients : ℤ) (s : Pool n) : PoolAct n → Option (Pool n)
  | .server a => (s.server.step maxclients a).bind fun t => (s.answer a).map fun f => ⟨t, f⟩
  | .skip w fd =>
      let x := s.server.workers w
      if x.pc = .wait ∧ fd ∈ x.registered ∧ (s.socket (x.interest fd).conn).pending = true ∧
          s.polled x fd = 0 then
        some { s with socket := s.unlisted x [fd] }
      else none
  | .peer w fd a =>
      let r := (s.server.workers w).interest fd
      if fd ∈ (s.server.workers w).registered ∧ a.outside then
        (((s.socket r.conn).under (some r.events)).step .taskThread fd a).map fun e =>
          { s with socket := s.setSocket r.conn e }
      else none
  | .away c a =>
      if (∀ w, ∀ fd ∈ (s.server.workers w).registered,
          ((s.server.workers w).interest fd).conn ≠ c) ∧ a.outside then
        (((s.socket c).under none).step .taskThread 0 a).map fun e =>
          { s with socket := s.setSocket c e }
      else none

/-- Every step of the pool with its guard and effect. -/
inductive Transition (maxclients : ℤ) (s : Pool n) : PoolAct n → Pool n → Prop
  | server {a : Action n} {u : Server n} {f : Conn → Socket}
      (hu : s.server.step maxclients a = some u) (hf : s.answer a = some f) :
      Transition maxclients s (.server a) ⟨u, f⟩
  | skip {w : Fin n} {fd : Fd} (hpc : (s.server.workers w).pc = .wait)
      (hreg : fd ∈ (s.server.workers w).registered)
      (hpending : (s.socket ((s.server.workers w).interest fd).conn).pending = true)
      (hpolled : s.polled (s.server.workers w) fd = 0) :
      Transition maxclients s (.skip w fd)
        { s with socket := s.unlisted (s.server.workers w) [fd] }
  | peer {w : Fin n} {fd : Fd} {a : EndpointAct} {e : Endpoint}
      (hreg : fd ∈ (s.server.workers w).registered) (hout : a.outside = true)
      (he : ((s.socket ((s.server.workers w).interest fd).conn).under
        (some ((s.server.workers w).interest fd).events)).step .taskThread fd a = some e) :
      Transition maxclients s (.peer w fd a)
        { s with socket := s.setSocket ((s.server.workers w).interest fd).conn e }
  | away {c : Conn} {a : EndpointAct} {e : Endpoint}
      (hno : ∀ w, ∀ fd ∈ (s.server.workers w).registered,
        ((s.server.workers w).interest fd).conn ≠ c) (hout : a.outside = true)
      (he : ((s.socket c).under none).step .taskThread 0 a = some e) :
      Transition maxclients s (.away c a) { s with socket := s.setSocket c e }

theorem step_cases {maxclients : ℤ} {s t : Pool n} {a : PoolAct n}
    (h : s.step maxclients a = some t) : Transition maxclients s a t := by
  cases a with
  | server a =>
    obtain ⟨u, hu, hmap⟩ := Option.bind_eq_some_iff.mp h
    obtain ⟨f, hf, rfl⟩ := Option.map_eq_some_iff.mp hmap
    exact .server hu hf
  | skip w fd =>
    simp only [step, Option.ite_none_right_eq_some, Option.some.injEq] at h
    obtain ⟨⟨hpc, hreg, hpending, hpolled⟩, rfl⟩ := h
    exact .skip hpc hreg hpending hpolled
  | peer w fd a =>
    simp only [step, Option.ite_none_right_eq_some] at h
    obtain ⟨⟨hreg, hout⟩, hmap⟩ := h
    obtain ⟨e, he, rfl⟩ := Option.map_eq_some_iff.mp hmap
    exact .peer hreg hout he
  | away c a =>
    simp only [step, Option.ite_none_right_eq_some] at h
    obtain ⟨⟨hno, hout⟩, hmap⟩ := h
    obtain ⟨e, he, rfl⟩ := Option.map_eq_some_iff.mp hmap
    exact .away hno hout he

/-- The server has just started, and no socket is on a ready list. -/
structure Start (s : Pool n) : Prop where
  server : s.server.Start
  socket : ∀ c, (s.socket c).pending = false

/-- What a step does to the connection `c`, except for the turn of its event in a batch. -/
def seen (c : Conn) (s : Pool n) : PoolAct n → Option EndpointAct
  | .server (.assign (.add true)) =>
      match s.server.listener with
      | .assigning sockfd _ => if s.server.files sockfd = some c then some .add else none
      | _ => none
  | .server (.wait w batch) =>
      if c ∈ batch.map fun p => ((s.server.workers w).interest p.1).conn then some .wait else none
  | .server (.handle w act) =>
      match (s.server.workers w).pc with
      | .event ev _ _ => if ev.conn = c then some (.handle act) else none
      | _ => none
  | .server _ => none
  | .skip w fd => if ((s.server.workers w).interest fd).conn = c then some .wait else none
  | .peer w fd a => if ((s.server.workers w).interest fd).conn = c then some a else none
  | .away c' a => if c' = c then some a else none

/-- What a `send` on the connection `c` hands to the kernel. -/
def outputs (c : Conn) (s : Pool n) : PoolAct n → Option (List Byte)
  | .server (.handle w (.send res _)) =>
      match (s.server.workers w).pc with
      | .event ev (.sendn str) _ => if ev.conn = c then some (str.accepted res) else none
      | _ => none
  | _ => none

end Pool

def poolMachine (n : ℕ) (maxclients : ℤ) : Machine (Pool n) (PoolAct n) where
  start := Pool.Start
  step := Pool.step maxclients

end EpollThreads.Connection
