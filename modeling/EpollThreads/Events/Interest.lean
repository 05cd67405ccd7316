import EpollThreads.Events.EventLoop
import EpollThreads.Foundations.Machine

/-!
# The mask of one registered descriptor

`i_epoll_add` registers a descriptor and every `i_epoll_change_mode` replaces its
mask. Each of the two builds the mask on its own, and only the first asks for
`EPOLLRDHUP`.
-/

namespace EpollThreads.Events

open Foundations

/-- A successful call for the descriptor. -/
inductive InterestCall
  | add (mode : Mode) (behavior : Behavior)
  | changeMode (mode : Mode) (behavior : Behavior)
  deriving DecidableEq, Repr

namespace InterestCall

def isAdd : InterestCall → Bool
  | .add .. => true
  | .changeMode .. => false

/-- Error interest, triggering and direction as requested, whichever call it is. -/
def requested : InterestCall → BitVec 32
  | .add mode behavior | .changeMode mode behavior =>
      (EPOLLERR ||| EPOLLHUP ||| EPOLLRDHUP) ||| behavior.bits ||| mode.bits

/-- The mask the call hands to `epoll_ctl`. -/
def events : InterestCall → BitVec 32
  | .add mode behavior => addEvents mode behavior
  | .changeMode mode behavior => changeModeEvents mode behavior

theorem events_eq_requested_iff (c : InterestCall) : c.events = c.requested ↔ c.isAdd := by
  cases c with
  | add mode behavior => exact ⟨fun _ => rfl, fun _ => rfl⟩
  | changeMode mode behavior => cases mode <;> cases behavior <;> decide

end InterestCall

/-- `none` until the descriptor is registered; it is added once and then changed. -/
def interestMachine : Machine (Option (BitVec 32)) InterestCall where
  start s := s = none
  step
    | none, .add mode behavior => some (some (addEvents mode behavior))
    | some _, .changeMode mode behavior => some (some (changeModeEvents mode behavior))
    | _, _ => none

theorem interest_step {s t : Option (BitVec 32)} {c : InterestCall}
    (h : interestMachine.step s c = some t) :
    t = some c.events ∧ (c.isAdd ↔ s = none) := by
  cases s <;> cases c <;>
    simp only [interestMachine, Option.some.injEq, reduceCtorEq] at h <;> subst h <;>
    simp [InterestCall.events, InterestCall.isAdd]

/-- The mask is that of the last call, and the first call is the registration. -/
theorem interest_of_reaches {tr : List InterestCall} {t : Option (BitVec 32)}
    (h : interestMachine.Reaches tr t) :
    t = tr.getLast?.map InterestCall.events ∧
      ((∀ c ∈ tr, c.isAdd) ↔ tr.length ≤ 1) := by
  refine h.history (Q := fun tr t => t = tr.getLast?.map InterestCall.events ∧
    ((∀ c ∈ tr, c.isAdd) ↔ tr.length ≤ 1)) ?_ ?_
  · rintro s rfl
    exact ⟨rfl, by simp⟩
  · rintro tr s c t - ⟨hs, hadd⟩ hstep
    obtain ⟨rfl, hc⟩ := interest_step hstep
    refine ⟨by simp, ?_⟩
    have hnil : s = none ↔ tr = [] := by simp [hs]
    simp only [List.mem_append, List.mem_singleton, or_imp, forall_and, forall_eq, hc, hnil,
      hadd, List.length_append, List.length_singleton]
    rw [← List.length_eq_zero_iff]
    omega

/-- The mask is what the last call asked for as long as no mode change was made. -/
theorem interest_eq_requested_iff {tr : List InterestCall} {t : Option (BitVec 32)}
    (h : interestMachine.Reaches tr t) :
    t = tr.getLast?.map InterestCall.requested ↔
      ∀ c ∈ tr, c.isAdd := by
  obtain ⟨rfl, hadd⟩ := interest_of_reaches h
  rw [hadd]
  cases tr using List.reverseRecOn with
  | nil => simp
  | append_singleton tr c =>
    obtain ⟨s, hs, hrun⟩ := h
    obtain ⟨u, hu, hstep⟩ := hrun.last
    obtain ⟨-, hc⟩ := interest_step hstep
    have hu' := (interest_of_reaches ⟨s, hs, hu⟩).1
    have hnil : u = none ↔ tr = [] := by simp [hu']
    simp only [List.getLast?_concat, Option.map_some, Option.some.injEq,
      InterestCall.events_eq_requested_iff, hc, hnil, List.length_append, List.length_singleton]
    rw [← List.length_eq_zero_iff]
    omega

theorem interest_eq_requested_iff_add :
    some (addEvents .write .edgeTriggered) =
        [InterestCall.add .write .edgeTriggered].getLast?.map InterestCall.requested ∧
      some (changeModeEvents .read .edgeTriggered) ≠
        [InterestCall.add .write .edgeTriggered, .changeMode .read .edgeTriggered].getLast?.map
          InterestCall.requested := by
  have hadd : interestMachine.Reaches [.add .write .edgeTriggered]
      (some (addEvents .write .edgeTriggered)) := ⟨none, rfl, .of_exec (by decide)⟩
  have hchange : interestMachine.Reaches
      [.add .write .edgeTriggered, .changeMode .read .edgeTriggered]
      (some (changeModeEvents .read .edgeTriggered)) := ⟨none, rfl, .of_exec (by decide)⟩
  exact ⟨(interest_eq_requested_iff hadd).mpr (by decide),
    fun h => absurd ((interest_eq_requested_iff hchange).mp h) (by decide)⟩

/-- After the first exchange `EPOLLRDHUP` is gone. -/
theorem not_interest_eq_requested :
    ¬∀ (tr : List InterestCall) (t : Option (BitVec 32)), interestMachine.Reaches tr t →
      t = tr.getLast?.map InterestCall.requested := by
  intro h
  have hreach : interestMachine.Reaches
      [.add .write .edgeTriggered, .changeMode .read .edgeTriggered]
      (some (changeModeEvents .read .edgeTriggered)) := ⟨none, rfl, .of_exec (by decide)⟩
  exact absurd (h _ _ hreach) (by decide)

end EpollThreads.Events
