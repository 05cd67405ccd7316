import EpollThreads.Events.EventLoop

/-!
# The log calls around the handling of an event

`Stage.advance` leaves out the messages of `iEpoll` and of the handlers. Each is
logged between two steps of a worker: some tell what a step has returned, some
come first in the function that is entered next. The messages of `Listen`, of
`AssignTask` and of `sigtermHandler` stand here beside them.
-/

namespace EpollThreads.Events

open Foundations

/-- The calls of `myepollLog` after start-up; `sigterm` is either message of the handler. -/
inductive LogCall
  | listenErr
  | fcntlErr
  | newClient
  | maxClients
  | addErr
  | recvErr
  | recvData
  | sendErr
  | modErr
  | error
  | closing
  | delErr
  | activeConns
  | sigterm
  deriving DecidableEq, Repr

def LogCall.level : LogCall → ℤ
  | .newClient | .recvData | .closing | .activeConns => MY_DEBUG
  | .maxClients | .sigterm => MY_NOTICE
  | .listenErr | .fcntlErr | .addErr | .recvErr | .sendErr | .modErr | .error | .delErr =>
      MY_WARNING

namespace Stage

/-- What `iError` and `iClose` begin with. -/
def opening : Stage → List LogCall
  | .iError => [.error]
  | .del => [.closing]
  | _ => []

/-- What is logged about a step that was taken. -/
def logs : Stage → HandlerAct → List LogCall
  | .recvn r, .recv res errno =>
      match r.recv res errno with
      | .again _ => []
      | .done bytes => if bytes ≤ 0 then [.recvErr] else [.recvData]
  | .sendn s, .send res errno =>
      match s.send res errno with
      | .again _ => []
      | .done bytes => if bytes ≤ 0 then [.sendErr] else []
  | .changeToWrite, .mod false | .changeToRead, .mod false => [.modErr]
  | .del, .del false => [.delErr]
  | .dec, .dec => [.activeConns]
  | _, _ => []

theorem newClient_not_mem_opening (stage : Stage) : .newClient ∉ stage.opening := by
  cases stage <;> simp [opening]

theorem newClient_not_mem_logs (stage : Stage) (act : HandlerAct) :
    .newClient ∉ stage.logs act := by
  unfold logs
  split <;> try simp
  all_goals split <;> try simp
  all_goals split <;> simp

end Stage
end EpollThreads.Events
