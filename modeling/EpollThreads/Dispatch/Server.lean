import EpollThreads.Dispatch.AssignTask
import EpollThreads.Events.EventLoop
import Mathlib.Data.Finset.Card
import Mathlib.Logic.Function.Basic

/-!
# The listener, the worker pool and the descriptors they share

One action is one kernel call or one atomic counter access of one thread. The
kernel part of a state is the table of open connection descriptors and, for
each worker, the interest list behind its epoll descriptor. An accepted
connection is named by the open file description behind its descriptor: the
number of a closed descriptor may be given out again, its name may not.
Reading `shutdown` is an action of its own, so the flag can be set anywhere.
The log calls between the steps of a thread are added in `LoggedServer`, where a
thread waits until they have returned; runs here are those runs without them.
-/

namespace EpollThreads.Dispatch

open Foundations Events

abbrev Fd := ℕ
abbrev Conn := ℕ

/-- What an interest list keeps for a registered descriptor. -/
structure Registration where
  conn : Conn
  events : BitVec 32
  deriving DecidableEq, Repr, Inhabited

/-- An element of `m_events`; `conn` is what the kernel reported it for, which
the program cannot see. -/
structure Event where
  fd : Fd
  events : BitVec 32
  conn : Conn
  deriving DecidableEq, Repr

/-- Where a worker's thread is in `i_epoll_wait`. -/
inductive WorkerPc
  | notStarted
  | test
  | wait
  | event (ev : Event) (stage : Stage) (rest : List Event)
  | returned
  deriving DecidableEq, Repr

structure Worker where
  epfd : ℤ
  activeConns : ℤ
  registered : Finset Fd
  interest : Fd → Registration
  nRet : ℤ
  pc : WorkerPc

/-- Where the listener is in `ListenThread::Run`. The socket calls between
`accept` and the entry of `AssignTask` touch only the new descriptor; they
belong to the accept step. The messages there come between that step and the
next one, and a `LoggedServer` has a state for them. -/
inductive ListenerPc
  | test
  | listen
  | assigning (sockfd : Fd) (pc : AssignPc)
  | returned
  deriving DecidableEq, Repr

structure Server (n : ℕ) where
  shutdown : Bool
  listener : ListenerPc
  workers : Fin n → Worker
  files : Fd → Option Conn
  accepted : ℕ
  closes : Conn → ℕ

inductive Action (n : ℕ)
  | shutdown
  | listenerTest
  | listenFails
  | accept (fd : Fd)
  | assign (op : AssignOp)
  | workerTest (w : Fin n)
  | wait (w : Fin n) (batch : List (Fd × BitVec 32))
  | handle (w : Fin n) (act : HandlerAct)
  deriving DecidableEq, Repr

inductive Thread (n : ℕ)
  | main
  | listener
  | worker (w : Fin n)
  deriving DecidableEq, Repr

/-- The thread that takes a step of the server. -/
def actor {n : ℕ} : Action n → Option (Thread n)
  | .shutdown => none
  | .listenerTest | .listenFails | .accept _ | .assign _ => some .listener
  | .workerTest w | .wait w _ | .handle w _ => some (.worker w)

/-- `for (i=0; i<num_fds; i++)`: the next event that has something to do. -/
def WorkerPc.dispatch (nRet : ℤ) : List Event → WorkerPc
  | [] => .test
  | ev :: rest =>
      match beginEvent ev.events nRet with
      | some stage => .event ev stage rest
      | none => dispatch nRet rest

namespace Worker

/-- `m_events` as `epoll_wait` fills it. -/
def report (x : Worker) (batch : List (Fd × BitVec 32)) : List Event :=
  batch.map fun p => ⟨p.1, p.2, (x.interest p.1).conn⟩

def resume (x : Worker) (ev : Event) (rest : List Event) (p : Pass) : Worker :=
  { x with
    nRet := p.nRet
    pc := match p.stage with
      | some stage => .event ev stage rest
      | none => .dispatch p.nRet rest }

def changeMask (x : Worker) (fd : Fd) (events : BitVec 32) : Worker :=
  { x with interest := Function.update x.interest fd ⟨(x.interest fd).conn, events⟩ }

def remove (x : Worker) (fd : Fd) : Worker := { x with registered := x.registered.erase fd }

def insert (x : Worker) (fd : Fd) (r : Registration) : Worker :=
  { x with
    registered := Insert.insert fd x.registered
    interest := Function.update x.interest fd r }

def increment (x : Worker) : Worker := { x with activeConns := x.activeConns + 1 }

def decrement (x : Worker) : Worker := { x with activeConns := x.activeConns - 1 }

end Worker

namespace Server

variable {n : ℕ}

def setWorker (s : Server n) (w : Fin n) (x : Worker) : Server n :=
  { s with workers := Function.update s.workers w x }

/-- `close(fd)`: the last descriptor of the connection goes, and with it its
registration in whatever interest list still has it. -/
def closeFd (s : Server n) (fd : Fd) : Server n :=
  match s.files fd with
  | none => s
  | some c =>
      { s with
        files := Function.update s.files fd none
        closes := Function.update s.closes c (s.closes c + 1)
        workers := fun w => (s.workers w).remove fd }

/-- `m_taskthread[i]->GetActiveConns()`. -/
def counter (s : Server n) (i : ℕ) : Option ℤ :=
  if h : i < n then some (s.workers ⟨i, h⟩).activeConns else none

/-- `AssignTask` returns to the loop of `Run`. -/
def listenerAfter (sockfd : Fd) : AssignPc → ListenerPc
  | .returned => .test
  | pc => .assigning sockfd pc

/-- What the kernel and the counters see of a step of `AssignTask`. -/
def assignEffect (s : Server n) (sockfd : Fd) : AssignPc → AssignOp → Option (Server n)
  | .close, .close => some (s.closeFd sockfd)
  | .add target, .add true =>
      if h : target < n then
        let x := s.workers ⟨target, h⟩
        match s.files sockfd with
        | some c =>
            if x.epfd = -1 ∨ sockfd ∈ x.registered then none
            else some (s.setWorker ⟨target, h⟩ (x.insert sockfd
              ⟨c, addEvents .write .edgeTriggered⟩))
        | none => none
      else none
  | .increment target, .increment =>
      if h : target < n then
        some (s.setWorker ⟨target, h⟩ (s.workers ⟨target, h⟩).increment)
      else none
  | _, _ => some s

def assignStep (maxclients : ℤ) (s : Server n) (op : AssignOp) : Option (Server n) :=
  match s.listener with
  | .assigning sockfd pc =>
      (pc.step n maxclients s.counter op).bind fun pc' =>
        (s.assignEffect sockfd pc op).map fun t => { t with listener := listenerAfter sockfd pc' }
  | _ => none

/-- What the kernel and the counters see of a step of a handler. -/
def handleEffect (s : Server n) (w : Fin n) (fd : Fd) (stage : Stage) :
    HandlerAct → Option (Server n)
  | .mod true =>
      if fd ∈ (s.workers w).registered then
        some (s.setWorker w ((s.workers w).changeMask fd
          (changeModeEvents stage.newMode .edgeTriggered)))
      else none
  | .del true =>
      if fd ∈ (s.workers w).registered then some (s.setWorker w ((s.workers w).remove fd))
      else none
  | .close => some (s.closeFd fd)
  | .dec => some (s.setWorker w (s.workers w).decrement)
  | _ => some s

def handleStep (s : Server n) (w : Fin n) (act : HandlerAct) : Option (Server n) :=
  match (s.workers w).pc with
  | .event ev stage rest =>
      (stage.advance .taskThread ev.fd ev.events (s.workers w).nRet act).bind fun p =>
        (s.handleEffect w ev.fd stage act).map fun t =>
          t.setWorker w ((t.workers w).resume ev rest p)
  | _ => none

/-- `epoll_wait` returns any list of registered descriptors without
repetitions, and only an error on a worker whose `epoll_create` failed. -/
def waitStep (s : Server n) (w : Fin n) (batch : List (Fd × BitVec 32)) : Option (Server n) :=
  let x := s.workers w
  if x.pc = .wait ∧ (batch.map Prod.fst).Nodup ∧ (∀ p ∈ batch, p.1 ∈ x.registered) ∧
      (x.epfd = -1 → batch = []) then
    some (s.setWorker w { x with pc := .dispatch x.nRet (x.report batch) })
  else none

def step (maxclients : ℤ) (s : Server n) : Action n → Option (Server n)
  | .shutdown => some { s with shutdown := true }
  | .listenerTest =>
      if s.listener = .test then
        some { s with listener := if s.shutdown then .returned else .listen }
      else none
  | .listenFails => if s.listener = .listen then some { s with listener := .test } else none
  | .accept fd =>
      if s.listener = .listen ∧ s.files fd = none then
        some { s with
          listener := .assigning fd (.begin n maxclients)
          files := Function.update s.files fd (some s.accepted)
          accepted := s.accepted + 1 }
      else none
  | .assign op => s.assignStep maxclients op
  | .workerTest w =>
      if (s.workers w).pc = .test then
        some (s.setWorker w { s.workers w with pc := if s.shutdown then .returned else .wait })
      else none
  | .wait w batch => s.waitStep w batch
  | .handle w act => s.handleStep w act

/-- After start-up nothing is accepted or registered. A worker whose thread was
not created never runs, and one whose `epoll_create` failed has descriptor -1. -/
structure Start (s : Server n) : Prop where
  running : s.shutdown = false
  listener : s.listener = .test
  worker : ∀ w, (s.workers w).activeConns = 0 ∧ (s.workers w).registered = ∅ ∧
    (s.workers w).nRet = -1 ∧ ((s.workers w).pc = .test ∨ (s.workers w).pc = .notStarted)
  files : ∀ fd, s.files fd = none
  accepted : s.accepted = 0
  closes : ∀ c, s.closes c = 0

/-- All threads were created and every epoll descriptor opened. -/
def initial (n : ℕ) : Server n where
  shutdown := false
  listener := .test
  workers w := ⟨3 + w, 0, ∅, fun _ => default, -1, .test⟩
  files _ := none
  accepted := 0
  closes _ := 0

theorem start_initial : Start (initial n) :=
  ⟨rfl, rfl, fun _ => ⟨rfl, rfl, rfl, Or.inl rfl⟩, fun _ => rfl, rfl, fun _ => rfl⟩

end Server

def serverMachine (n : ℕ) (maxclients : ℤ) : Machine (Server n) (Action n) where
  start := Server.Start
  step := Server.step maxclients

end EpollThreads.Dispatch
