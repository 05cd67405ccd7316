import EpollThreads.Dispatch.CallsLeft
import EpollThreads.Dispatch.Delivery
import EpollThreads.Foundations.Potential
import EpollThreads.Shutdown.Teardown

/-!
# What is left to do once `shutdown` is set

The loops of `ListenThread::Run` and `i_epoll_wait` test the flag at their head
only, so a thread finishes the round it is in: the listener at most one more
connection, a worker at most one more batch. No thread gets stuck on the way.
-/

namespace EpollThreads.Dispatch

open Foundations Events

namespace AssignPc

/-- Something is still to be read, or the choice has been made and is to be carried out. -/
def Unfinished : AssignPc → Prop
  | .compare _ _ _ left right => left = none ∨ right = none
  | .returned => False
  | _ => True

theorem unfinished_loopHead (size : ℕ) (maxclients : ℤ) (i target : ℕ) (activeConns : ℤ) :
    (loopHead size maxclients i target activeConns).Unfinished := by
  unfold loopHead
  split_ifs <;> trivial

theorem unfinished_afterRead {size : ℕ} {maxclients : ℤ} {pc pc' : AssignPc} {r : CounterRead}
    {v : ℤ} (h : pc.afterRead size maxclients r v = some pc') : pc'.Unfinished := by
  cases afterRead_cases h with
  | count | rightFirst => exact Or.inl rfl
  | leftFirst => exact Or.inr rfl
  | leftLast | rightLast => exact unfinished_loopHead ..

end AssignPc

namespace Server

variable {n : ℕ} {maxclients : ℤ} {s t : Server n}

/-- Where a call of `AssignTask` can stand. -/
def CallReady (s : Server n) : Prop :=
  ∀ sockfd pc, s.listener = .assigning sockfd pc → pc.InRange n ∧ pc.Unfinished

theorem CallReady.step (hn : 2 ≤ n) (h : CallReady s) {a : Action n}
    (ht : Transition maxclients s a t) : CallReady t := by
  intro sockfd pc' hl
  by_cases ha : ∃ fd, a = .accept fd
  · obtain ⟨fd, rfl⟩ := ha
    cases ht
    obtain ⟨rfl, rfl⟩ := ListenerPc.assigning.inj hl
    exact ⟨AssignPc.inRange_loopHead hn, AssignPc.unfinished_loopHead ..⟩
  · obtain ⟨pc, hs, -, hpc⟩ := call_step ht (not_exists.mp ha) hl
    obtain ⟨hin, hun⟩ := h sockfd pc hs
    rcases hpc with rfl | ⟨target, rfl, rfl⟩ | ⟨r, w, -, hr⟩
    · exact ⟨hin, hun⟩
    · exact ⟨hin, trivial⟩
    · exact ⟨hin.afterRead hr, AssignPc.unfinished_afterRead hr⟩

theorem CallReady.of_reaches (hn : 2 ≤ n) {tr : List (Action n)}
    (h : (serverMachine n maxclients).Reaches tr s) : CallReady s :=
  h.invariant (fun hs sockfd pc hl => by simp [hs.listener] at hl)
    fun hs hstep => hs.step hn (step_cases hstep)

end Server
end EpollThreads.Dispatch

namespace EpollThreads.Shutdown

open Foundations Events Dispatch Dispatch.Server

variable {n : ℕ} {maxclients : ℤ} {s t : Server n}

def accepts : Dispatch.Action n → Bool
  | .accept _ => true
  | _ => false

open CallingAct

variable {verbosity : ℤ} {S T : LoggedServer n}
  {tr tr' : List (CallingAct (Dispatch.Action n) (Thread n) LogCall)}

end EpollThreads.Shutdown
