import EpollThreads.Connection.Conversation
import EpollThreads.Events.LogCalls
import EpollThreads.Foundations.Calls
import EpollThreads.Logging.LogMutex

/-!
# A conversation with its log calls

Each side of a link is a process of its own with a log mutex of its own. A worker
that reads a message logs what it has read, so a side that filters debug messages
keeps its mutex from its first read on and stops at the next one. Where nothing is
filtered and the mutexes are free a conversation goes on, log calls included.
-/

namespace EpollThreads.Connection

open Foundations Events Logging

def EndpointPc.opening : EndpointPc → List LogCall
  | .handling _ stage => stage.opening
  | _ => []

/-- The messages of a worker after its step from `e` to `e'`. -/
def Endpoint.logs (e e' : Endpoint) : EndpointAct → List LogCall
  | .handle act =>
      match e.pc with
      | .handling _ stage => stage.logs act ++ e'.pc.opening
      | _ => []
  | _ => e'.pc.opening

/-- The side whose worker takes the step; the registration is another thread's. -/
def LinkAct.actor : LinkAct → Option Role
  | .act r .wait | .act r (.begin _) | .act r (.handle _) => some r
  | _ => none

def linkCalls (verbosity : Role → ℤ) : Calls Link LinkAct Role LogCall (Role → Bool) where
  actor := LinkAct.actor
  after s a t :=
    match a with
    | .act r a => [(s.side r).endpoint.logs (t.side r).endpoint a]
    | .deliver _ _ => [[]]
  handler := [.sigterm]
  call r c held := (myepollLog (verbosity r) c.level (held r)).map (Function.update held r)
  lose r held := Function.update held r true

namespace LoggedLink

open CallingAct Link

variable {sockfd : Role → ℕ} {verbosity : Role → ℤ} {S : LoggedLink}
  {tr : List (CallingAct LinkAct Role LogCall)}

theorem call_free (hv : ∀ r, verbosity r ≤ MY_DEBUG) (r : Role) (c : LogCall) :
    (linkCalls verbosity).call r c (fun _ => false) = some fun _ => false := by
  have hle : MY_DEBUG ≤ levelBits c.level := by cases c <;> decide
  have hlevel : ¬levelBits c.level < verbosity r := not_lt.mpr ((hv r).trans hle)
  simp [linkCalls, myepollLog, hlevel]

theorem logs_ne_nil {s t : Link} {a : LinkAct} : (linkCalls verbosity).after s a t ≠ [] := by
  cases a <;> simp [linkCalls]

end LoggedLink
end EpollThreads.Connection
