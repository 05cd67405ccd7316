import EpollThreads.Dispatch.Transition
import EpollThreads.Events.LogCalls
import EpollThreads.Foundations.Calls
import EpollThreads.Logging.LogMutex

/-!
# The server with its log calls

The listener and the workers log between their steps, each call under the one log
mutex. A filtered message leaves it held, and then whoever has a message to log
stays where it is: the listener with the socket it has accepted, a worker in the
middle of a handler, any of them in `sigtermHandler`.
-/

namespace EpollThreads.Dispatch

open Foundations Events Logging

def WorkerPc.opening : WorkerPc → List LogCall
  | .event _ stage _ => stage.opening
  | _ => []

def ListenerPc.opening : ListenerPc → List LogCall
  | .assigning _ .close => [.maxClients]
  | _ => []

namespace Server

variable {n : ℕ}

/-- The messages between a step from `s` to `t` and the next one of its thread. `Listen` may
fail with no message, when it finds `shutdown` set, and accept with two. -/
def logs (s t : Server n) : Action n → List (List LogCall)
  | .listenFails => [[], [.listenErr]]
  | .accept _ =>
      [.newClient :: t.listener.opening, .fcntlErr :: .newClient :: t.listener.opening]
  | .assign (.add false) => [[.addErr]]
  | .assign _ => [t.listener.opening]
  | .wait w _ => [(t.workers w).pc.opening]
  | .handle w act =>
      match (s.workers w).pc with
      | .event _ stage _ => [stage.logs act ++ (t.workers w).pc.opening]
      | _ => [[]]
  | _ => [[]]

theorem logs_ne_nil (s t : Server n) (a : Action n) : s.logs t a ≠ [] := by
  unfold logs
  split <;> try simp
  split <;> simp

end Server

/-- `lose` stands for a filtered message of another thread, or for one that never comes to its
unlock because a signal handler logs in the middle of it. -/
def logCalls (n : ℕ) (verbosity : ℤ) : Calls (Server n) (Action n) (Thread n) LogCall Bool where
  actor := actor
  after s a t := s.logs t a
  handler := [.sigterm]
  call _ c := myepollLog verbosity c.level
  lose _ _ := true

abbrev LoggedServer (n : ℕ) := Calling (Server n) (Thread n) LogCall Bool

def loggedMachine (n : ℕ) (maxclients verbosity : ℤ) :
    Machine (LoggedServer n) (CallingAct (Action n) (Thread n) LogCall) :=
  (serverMachine n maxclients).withCalls (logCalls n verbosity)

namespace LoggedServer

variable {n : ℕ} {maxclients verbosity : ℤ} {S T : LoggedServer n}
  {tr : List (CallingAct (Action n) (Thread n) LogCall)}

open CallingAct

/-- The thread has a message to log and the mutex is held for good. -/
def Stuck (S : LoggedServer n) (x : Thread n) : Prop := S.held = true ∧ S.due x ≠ []

instance (S : LoggedServer n) (x : Thread n) : Decidable (S.Stuck x) :=
  inferInstanceAs (Decidable (S.held = true ∧ S.due x ≠ []))

theorem stuck_iff {x : Thread n} : Calling.Stuck (logCalls n verbosity) S x ↔ S.Stuck x := by
  refine and_congr_left fun _ => ?_
  constructor
  · intro hno
    simpa [logCalls, myepollLog] using hno .error
  · rintro hheld c
    simp [logCalls, myepollLog, hheld]

/-- Nobody gets the mutex back. -/
theorem Stuck.run {x : Thread n} (hs : S.Stuck x)
    (h : (loggedMachine n maxclients verbosity).Run S tr T) :
    T.Stuck x ∧ S.due x <:+ T.due x := by
  have hcall {y : Thread n} {d : LogCall} {l l' : Bool}
      (hno : ∀ c, (logCalls n verbosity).call x c l = none)
      (hd : (logCalls n verbosity).call y d l = some l') :
      ∀ c, (logCalls n verbosity).call x c l' = none := by
    rw [show (logCalls n verbosity).call y d l = none from hno d] at hd
    cases hd
  obtain ⟨hstuck, hdue⟩ := h.stuck (stuck_iff.mpr hs) hcall fun _ _ => rfl
  exact ⟨stuck_iff.mp hstuck, hdue⟩

theorem exists_call {x : Thread n} (hs : ¬S.Stuck x) (hdue : S.due x ≠ []) :
    ∃ T, (loggedMachine n maxclients verbosity).step S (.call x) = some T := by
  obtain ⟨c, calls, hc⟩ := List.exists_cons_of_ne_nil hdue
  have hheld : S.held = false := by
    by_contra hheld
    exact hs ⟨eq_true_of_ne_false hheld, hdue⟩
  exact ⟨_, Calling.step_call (M := serverMachine n maxclients) (C := logCalls n verbosity) hc
    (by simp only [logCalls, myepollLog, hheld]; rfl)⟩

theorem call_free (hv : verbosity ≤ MY_DEBUG) (x : Thread n) (c : LogCall) :
    (logCalls n verbosity).call x c false = some false := by
  have hle : MY_DEBUG ≤ levelBits c.level := by cases c <;> decide
  have hlevel : ¬levelBits c.level < verbosity := not_lt.mpr (hv.trans hle)
  simp [logCalls, myepollLog, hlevel]

theorem held_eq_false (hv : verbosity ≤ MY_DEBUG) (hS : S.held = false)
    (h : (loggedMachine n maxclients verbosity).Run S tr T) (hlose : ∀ x, .lose x ∉ tr) :
    T.held = false := by
  refine h.invariant (I := fun S => S.held = false) (P := fun b => ∀ x, b ≠ .lose x)
    (fun {S b T} hb hS hstep => ?_) hS fun b hmem x hb => hlose x (hb ▸ hmem)
  cases Calling.step_cases hstep with
  | outside | own | signal => exact hS
  | @call x c calls held hx hc =>
    rw [hS, call_free hv] at hc
    exact (Option.some.inj hc).symm
  | lose x => exact (hb x rfl).elim

/-- Where no message is filtered, a run of the server can be had with its messages. -/
theorem exists_run (hv : verbosity ≤ MY_DEBUG) {s : Server n} {as : List (Action n)}
    (hS : S.held = false) (h : (serverMachine n maxclients).Run S.state as s) :
    ∃ tr T, (loggedMachine n maxclients verbosity).Run S tr T ∧ actions tr = as ∧
      T.state = s ∧ T.held = false :=
  h.withCalls (C := logCalls n verbosity) (call_free hv)
    (fun {s a t} _ => s.logs_ne_nil t a) hS

/-- Between the end of `accept` and the entry of `AssignTask`. -/
def HandingOver (S : LoggedServer n) : Prop := .newClient ∈ S.due .listener

instance (S : LoggedServer n) : Decidable S.HandingOver :=
  inferInstanceAs (Decidable (_ ∈ S.due .listener))

theorem newClient_not_mem_opening (pc : ListenerPc) : .newClient ∉ pc.opening := by
  unfold ListenerPc.opening
  split <;> simp

theorem newClient_not_mem_worker (pc : WorkerPc) : .newClient ∉ pc.opening := by
  unfold WorkerPc.opening
  split
  · exact Stage.newClient_not_mem_opening _
  · simp

/-- The message about a new client follows `accept` only. -/
theorem accept_of_newClient {s t : Server n} {a : Action n} {calls : List LogCall}
    (hcalls : calls ∈ s.logs t a) (hc : .newClient ∈ calls) : ∃ fd, a = .accept fd := by
  have hlistener := newClient_not_mem_opening t.listener
  cases a with
  | accept fd => exact ⟨fd, rfl⟩
  | shutdown | listenerTest | workerTest => simp_all [Server.logs]
  | listenFails => rcases List.mem_pair.mp hcalls with rfl | rfl <;> simp at hc
  | assign op =>
    unfold Server.logs at hcalls
    split at hcalls <;> simp_all
  | wait w batch =>
    obtain rfl := List.mem_singleton.mp hcalls
    exact (newClient_not_mem_worker _ hc).elim
  | handle w act =>
    simp only [Server.logs] at hcalls
    split at hcalls
    · obtain rfl := List.mem_singleton.mp hcalls
      rcases List.mem_append.mp hc with hc | hc
      · exact (Stage.newClient_not_mem_logs _ _ hc).elim
      · exact (newClient_not_mem_worker _ hc).elim
    · simp_all

/-- The socket that the message is about is in the listener's hands. -/
theorem HandingOver.assigning (h : (loggedMachine n maxclients verbosity).Reaches tr S)
    (hs : S.HandingOver) : ∃ fd, S.state.listener = .assigning fd (.begin n maxclients) := by
  refine (h.due (P := fun x c s => c = .newClient → x = .listener ∧
    ∃ fd, s.listener = .assigning fd (.begin n maxclients)) ?_ (by simp [logCalls]) ?_
    _ _ hs rfl).2
  · rintro s a t x calls c ha hstep hcalls hc rfl
    obtain ⟨fd, rfl⟩ := accept_of_newClient hcalls hc
    obtain rfl : Thread.listener = x := Option.some.inj ha
    have ht : Server.Transition maxclients s (.accept fd) t := Server.step_cases hstep
    cases ht
    exact ⟨rfl, fd, rfl⟩
  · rintro s a t x c ha hstep hs rfl
    obtain ⟨rfl, fd, hl⟩ := hs rfl
    refine ⟨rfl, fd, ?_⟩
    rcases Server.listener_of_transition (Server.step_cases hstep) with hown | hsame
    · exact (ha hown).elim
    · rw [hsame, hl]

/-- The mutex is free and nobody has anything to log. -/
def initial (n : ℕ) : LoggedServer n := ⟨.initial n, false, fun _ => []⟩

theorem start_initial : (loggedMachine n maxclients verbosity).start (initial n) :=
  ⟨Server.start_initial, fun _ => rfl⟩

/-- Steps without a message. -/
def silently (as : List (Action n)) : List (CallingAct (Action n) (Thread n) LogCall) :=
  as.map fun a => .step a []

end LoggedServer
end EpollThreads.Dispatch
