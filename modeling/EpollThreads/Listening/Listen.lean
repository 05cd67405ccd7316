import EpollThreads.Events.Transfer
import EpollThreads.Logging.LogMutex

/-!
# Accepting connections

`iSocket::Listen` and the loop of `ListenThread::Run` around it, from the end of
`Suspend` on. One action is one call of the kernel, of the logger or of
`AssignTask`, or one test of `shutdown`. `select` writes the time that is left
into its argument, as it does on Linux.
-/

namespace EpollThreads.Listening

open Foundations Logging Events

structure Timeval where
  tv_sec : ℤ
  tv_usec : ℤ
  deriving DecidableEq, Repr

/-- A result of `select` and the time it leaves; `isset` is `FD_ISSET(lsockfd, &readers)`. -/
inductive SelectOutcome
  | fail (errno : ℤ) (left : Timeval)
  | timeout
  | ready (isset : Bool) (left : Timeval)
  deriving DecidableEq, Repr

def SelectOutcome.left : SelectOutcome → Timeval
  | .fail _ left => left
  | .timeout => ⟨0, 0⟩
  | .ready _ left => left

inductive AcceptOutcome
  | fail (errno : ℤ)
  | connected (fd : ℕ)
  deriving DecidableEq, Repr

/-- Where a call of `Listen` is. The last four before the end are the call of `setNonBlock`, its
message, the message about the new client, and the one about a failure. -/
inductive ListenPc
  | test
  | select
  | accept
  | nonBlock
  | fcntlErr
  | newClient
  | failed
  | returned (nRet : ℤ)
  deriving DecidableEq, Repr

/-- The variables of a call; `sockfd` is its out-parameter. -/
structure ListenCall where
  tv : Timeval
  sockfd : ℤ
  pc : ListenPc
  deriving DecidableEq, Repr

inductive ListenOp
  | test (shutdown : Bool)
  | select (o : SelectOutcome)
  | accept (o : AcceptOutcome)
  | fcntl (ok : Bool)
  | log
  deriving DecidableEq, Repr

/-- The level of the message that is logged next. -/
def ListenPc.level : ListenPc → Option ℤ
  | .fcntlErr | .failed => some MY_WARNING
  | .newClient => some MY_DEBUG
  | _ => none

namespace ListenCall

/-- `tv.tv_usec = 0; tv.tv_sec = 1;` -/
def enter (sockfd : ℤ) : ListenCall := ⟨⟨1, 0⟩, sockfd, .test⟩

def afterSelect (c : ListenCall) (o : SelectOutcome) : ListenCall :=
  { c with
    tv := o.left
    pc := match o with
      | .fail _ _ => .failed
      | .timeout => .test
      | .ready isset _ => if isset then .accept else .test }

def afterAccept (c : ListenCall) : AcceptOutcome → ListenCall
  | .fail errno => { c with sockfd := -1, pc := if errno = EINTR then .test else .failed }
  | .connected fd => { c with sockfd := fd, pc := .nonBlock }

def step (c : ListenCall) : ListenOp → Option ListenCall
  | .test shutdown =>
      if c.pc = .test then some { c with pc := if shutdown then .returned (-1) else .select }
      else none
  | .select o => if c.pc = .select then some (c.afterSelect o) else none
  | .accept o => if c.pc = .accept then some (c.afterAccept o) else none
  | .fcntl ok =>
      if c.pc = .nonBlock then some { c with pc := if ok then .newClient else .fcntlErr } else none
  | .log =>
      match c.pc with
      | .fcntlErr => some { c with pc := .newClient }
      | .newClient => some { c with pc := .returned 0 }
      | .failed => some { c with pc := .returned (-1) }
      | _ => none

end ListenCall

/-- One call of `iSocket::Listen`, in which every message is logged. -/
def listenMachine : Machine ListenCall ListenOp where
  start c := ∃ sockfd, c = .enter sockfd
  step := ListenCall.step

inductive RunPc
  | test
  | listen (c : ListenCall)
  | assign
  | returned
  deriving DecidableEq, Repr

/-- The thread in `Run`, with `g_Server.shutdown`. The log mutex is held for good once a
message was filtered; a thread that is busy logging only makes others wait. -/
structure ListenThread where
  shutdown : Bool
  held : Bool
  sockfd : ℤ
  pc : RunPc
  deriving DecidableEq, Repr

/-- `lose` stands for a filtered message of another thread, or of `AssignTask`. -/
inductive RunOp
  | shutdown
  | lose
  | test
  | listen (op : ListenOp)
  | assign
  deriving DecidableEq, Repr

namespace ListenThread

/-- The log mutex after a step of `Listen`, if the step can be taken now. -/
def mutexAfter (verbosity : ℤ) (s : ListenThread) (c : ListenCall) : ListenOp → Option Bool
  | .test shutdown => if shutdown = s.shutdown then some s.held else none
  | .log => c.pc.level.bind fun level => myepollLog verbosity level s.held
  | _ => some s.held

/-- `if (0 == m_socket->Listen(m_sockfd, sockfd))` once the call has returned. -/
def resume (s : ListenThread) (c : ListenCall) : ListenThread :=
  { s with
    sockfd := c.sockfd
    pc := match c.pc with
      | .returned nRet => if nRet = 0 then .assign else .test
      | _ => .listen c }

def listenStep (verbosity : ℤ) (s : ListenThread) (op : ListenOp) : Option ListenThread :=
  match s.pc with
  | .listen c =>
      (s.mutexAfter verbosity c op).bind fun held =>
        (c.step op).map fun c' => { s with held := held }.resume c'
  | _ => none

/-- No message has a level below `MY_DEBUG`, so none is filtered at that verbosity. -/
def step (verbosity : ℤ) (s : ListenThread) : RunOp → Option ListenThread
  | .shutdown => some { s with shutdown := true }
  | .lose => if MY_DEBUG < verbosity then some { s with held := true } else none
  | .test =>
      if s.pc = .test then
        some { s with pc := if s.shutdown then .returned else .listen (.enter s.sockfd) }
      else none
  | .listen op => s.listenStep verbosity op
  | .assign => if s.pc = .assign then some { s with pc := .test } else none

/-- `int sockfd = -1;` -/
def Start (s : ListenThread) : Prop := s.sockfd = -1 ∧ s.pc = .test

end ListenThread

def runMachine (verbosity : ℤ) : Machine ListenThread RunOp where
  start := ListenThread.Start
  step := ListenThread.step verbosity

end EpollThreads.Listening
