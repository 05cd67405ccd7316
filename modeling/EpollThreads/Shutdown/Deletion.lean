import EpollThreads.Foundations.Cursor
import EpollThreads.Foundations.Interrupts
import EpollThreads.Shutdown.Handler
import Mathlib.Data.List.Nodup
import Mathlib.Tactic

/-!
# What the handler closes

`delete g_ListenThread` closes the listening socket and deletes the workers, each of
which closes its epoll descriptor. No destructor resets the member it closes, and
`g_ListenThread` is cleared last, so a run of the handler that interrupts another
one, or goes on beside it, finds the same objects again.
-/

namespace EpollThreads.Shutdown

open Foundations

/-- The objects of the server that have a descriptor. -/
inductive Owner
  | listenThread
  | taskThread (i : ℕ)
  deriving DecidableEq, Repr

/-- Where a run of `sigtermHandler` is, from its test of `g_ListenThread` on: `sockfd` and
`epfd` are at the `close` of `~ListenThread` and of `~iEpoll`, `del` is at the loop test of
`DelTaskThread` and the read of `m_taskthread[j]`. -/
inductive DeletePc
  | check
  | delete
  | sockfd
  | del (j : ℕ)
  | epfd (j i : ℕ)
  | clear
  | null
  | finished
  deriving DecidableEq, Repr

/-- The pointer, which is NULL or not, the vector of the workers, and the runs of the handler. -/
structure Deletion (T : Type*) where
  g_ListenThread : Bool
  m_taskthread : List ℕ
  frames : Interrupts T Signal DeletePc

/-- `fd` is what the member that is closed holds at that moment. -/
inductive DeleteAct (T : Type*)
  | signal (t : T) (sig : Signal)
  | go (r : T × ℕ)
  | close (r : T × ℕ) (o : Owner) (fd : ℤ)
  deriving DecidableEq, Repr

namespace Deletion

variable {T : Type*}

/-- The steps between the `close`s. -/
def advance (s : Deletion T) : DeletePc → Option (Deletion T × DeletePc)
  | .check => some (s, if s.g_ListenThread then .delete else .finished)
  | .delete => some (s, if s.g_ListenThread then .sockfd else .null)
  | .del j =>
      some (s, match s.m_taskthread[j]? with
        | some i => .epfd j i
        | none => .clear)
  | .clear => some ({ s with m_taskthread := [] }, .null)
  | .null => some ({ s with g_ListenThread := false }, .finished)
  | .sockfd | .epfd _ _ | .finished => none

/-- The object whose `close` comes next, and where the run is behind it. -/
def closes : DeletePc → Option (Owner × DeletePc)
  | .sockfd => some (.listenThread, .del 0)
  | .epfd j i => some (.taskThread i, .del (j + 1))
  | _ => none

variable [DecidableEq T]

def goOn (s : Deletion T) (r : T × ℕ) (pc : DeletePc) : Deletion T :=
  { s with frames := s.frames.goOn r pc }

def step (s : Deletion T) : DeleteAct T → Option (Deletion T)
  | .signal t sig =>
      if sig ∉ s.frames.served t then some { s with frames := s.frames.enter t sig .check }
      else none
  | .go r =>
      if s.frames.Innermost r then
        ((s.frames.run r).bind s.advance).map fun p => p.1.goOn r p.2
      else none
  | .close r o _ =>
      if s.frames.Innermost r then
        ((s.frames.run r).bind closes).bind fun p =>
          if p.1 = o then some (s.goOn r p.2) else none
      else none

/-- With `n` workers, when nobody has received a signal. -/
def initial (n : ℕ) : Deletion T := ⟨true, List.range n, .none⟩

/-- Every step with its effect. -/
inductive Transition (s : Deletion T) : DeleteAct T → Deletion T → Prop
  | signal {t : T} {sig : Signal} :
      Transition s (.signal t sig) { s with frames := s.frames.enter t sig .check }
  | go {r : T × ℕ} {pc pc' : DeletePc} {u : Deletion T} (hr : s.frames.run r = some pc)
      (h : s.advance pc = some (u, pc')) : Transition s (.go r) (u.goOn r pc')
  | close {r : T × ℕ} {o : Owner} {fd : ℤ} {pc pc' : DeletePc} (hr : s.frames.run r = some pc)
      (h : closes pc = some (o, pc')) : Transition s (.close r o fd) (s.goOn r pc')

theorem step_cases {s t : Deletion T} {a : DeleteAct T} (h : s.step a = some t) :
    Transition s a t := by
  cases a with
  | signal x sig =>
    simp only [step, Option.ite_none_right_eq_some, Option.some.injEq] at h
    obtain ⟨-, rfl⟩ := h
    exact .signal
  | go r =>
    simp only [step, Option.ite_none_right_eq_some, Option.map_eq_some_iff,
      Option.bind_eq_some_iff] at h
    obtain ⟨-, ⟨u, pc'⟩, ⟨pc, hr, hadvance⟩, rfl⟩ := h
    exact .go hr hadvance
  | close r o fd =>
    simp only [step, Option.ite_none_right_eq_some, Option.bind_eq_some_iff,
      Option.some.injEq] at h
    obtain ⟨-, ⟨o', pc'⟩, ⟨pc, hr, hcloses⟩, rfl, rfl⟩ := h
    exact .close hr hcloses

end Deletion

def deletionMachine (T : Type*) [DecidableEq T] (n : ℕ) : Machine (Deletion T) (DeleteAct T) where
  start s := s = .initial n
  step := Deletion.step

namespace Deletion

variable {T : Type*} {s t : Deletion T} {a : DeleteAct T} {tr : List (DeleteAct T)}

/-- The run that closes a descriptor, whose it is, and its number. -/
def closing : DeleteAct T → Option ((T × ℕ) × Owner × ℤ)
  | .close r o fd => if fd = -1 then none else some (r, o, fd)
  | _ => none

/-- The run is past the `close` of an object. -/
def Past (s : Deletion T) : Owner → DeletePc → Prop
  | _, .check | _, .delete | _, .sockfd => False
  | .taskThread i, .del j => Below s.m_taskthread j i
  | .taskThread i, .epfd j i' => i ≠ i' ∧ Below s.m_taskthread (j + 1) i
  | _, _ => True

/-- The worker in a run's hands is before those it will come to. -/
def Picked (s : Deletion T) : DeletePc → Prop
  | .epfd j i => Below s.m_taskthread (j + 1) i
  | _ => True

/-- Each run deletes the workers in the order of their construction, and is past those that it
has deleted. -/
structure Ordered (tr : List (DeleteAct T)) (s : Deletion T) : Prop where
  sorted : s.m_taskthread.Pairwise (· < ·)
  picked : ∀ r pc, s.frames.run r = some pc → s.Picked pc
  closed : ∀ r o fd, .close r o fd ∈ tr → ∃ pc, s.frames.run r = some pc ∧ s.Past o pc

theorem Ordered.init (n : ℕ) : Ordered [] (initial n : Deletion T) where
  sorted := List.pairwise_lt_range
  picked r pc hr := by simp [initial] at hr
  closed := by simp

theorem Ordered.snoc (h : Ordered tr s)
    (hclose : ∀ r o fd, a = .close r o fd → ∃ pc, s.frames.run r = some pc ∧ s.Past o pc) :
    Ordered (tr ++ [a]) s where
  sorted := h.sorted
  picked := h.picked
  closed r o fd hmem := by
    rcases List.mem_append.mp hmem with hmem | hmem
    · exact h.closed r o fd hmem
    · exact hclose r o fd (List.mem_singleton.mp hmem).symm

/-- Another pointer, and the workers as they are or none. -/
theorem Ordered.keep (h : Ordered tr s) (hframes : t.frames = s.frames)
    (hworkers : t.m_taskthread = s.m_taskthread ∨ t.m_taskthread = []) : Ordered tr t := by
  have hbelow {j i : ℕ} (hl : Below s.m_taskthread j i) : Below t.m_taskthread j i := by
    rcases hworkers with hw | hw
    · exact hw ▸ hl
    · exact hw ▸ Below.nil
  refine ⟨?_, fun r pc hr => ?_, fun r o fd hmem => ?_⟩
  · rcases hworkers with hw | hw
    · exact hw ▸ h.sorted
    · rw [hw]
      exact List.Pairwise.nil
  · have hold := h.picked r pc (hframes ▸ hr)
    cases pc with
    | epfd j i => exact hbelow hold
    | _ => trivial
  · obtain ⟨pc, hr, hold⟩ := h.closed r o fd hmem
    refine ⟨pc, hframes ▸ hr, ?_⟩
    cases pc with
    | check | delete | sockfd => exact hold.elim
    | del j => cases o with
      | listenThread => trivial
      | taskThread i => exact hbelow hold
    | epfd j i' => cases o with
      | listenThread => trivial
      | taskThread i => exact ⟨hold.1, hbelow hold.2⟩
    | clear | null | finished => cases o <;> trivial

/-- Before its `close` of an object a run is not past it, and behind it it is. -/
theorem Ordered.past (h : Ordered tr s) {r : T × ℕ} {o : Owner} {pc pc' : DeletePc}
    (hr : s.frames.run r = some pc) (hcloses : closes pc = some (o, pc')) :
    ¬s.Past o pc ∧ s.Picked pc' ∧ s.Past o pc' ∧ ∀ o', s.Past o' pc → s.Past o' pc' := by
  have hpicked := h.picked r pc hr
  cases pc with
  | sockfd =>
    obtain ⟨rfl, rfl⟩ := Prod.mk.inj (Option.some.inj hcloses)
    exact ⟨id, trivial, trivial, fun o hpast => hpast.elim⟩
  | epfd j i =>
    obtain ⟨rfl, rfl⟩ := Prod.mk.inj (Option.some.inj hcloses)
    refine ⟨fun hpast => hpast.1 rfl, trivial, hpicked, fun o hpast => ?_⟩
    cases o with
    | listenThread => trivial
    | taskThread i' => exact hpast.2
  | _ => cases hcloses

variable [DecidableEq T]

theorem Ordered.goOn (h : Ordered tr s) {r : T × ℕ} {pc pc' : DeletePc}
    (hr : s.frames.run r = some pc) (hpicked : s.Picked pc')
    (hpast : ∀ o, s.Past o pc → s.Past o pc') : Ordered tr (s.goOn r pc') where
  sorted := h.sorted
  picked := Interrupts.forall_goOn (P := fun _ => s.Picked) h.picked hr hpicked
  closed r' o fd hmem := Interrupts.exists_goOn (h.closed r' o fd hmem) hr (hpast o)

theorem Ordered.advance (h : Ordered tr s) {r : T × ℕ} {pc pc' : DeletePc} {u : Deletion T}
    (hr : s.frames.run r = some pc) (hadvance : s.advance pc = some (u, pc')) :
    Ordered tr (u.goOn r pc') := by
  cases pc with
  | sockfd | epfd | finished => cases hadvance
  | check | delete =>
    obtain ⟨rfl, rfl⟩ := Prod.mk.inj (Option.some.inj hadvance)
    exact h.goOn hr (by split_ifs <;> trivial) fun o hpast => hpast.elim
  | del j =>
    obtain ⟨rfl, rfl⟩ := Prod.mk.inj (Option.some.inj hadvance)
    cases hj : s.m_taskthread[j]? with
    | none => exact h.goOn hr trivial fun o _ => by cases o <;> trivial
    | some k =>
      refine h.goOn hr (.of_sorted h.sorted hj) fun o hpast => ?_
      cases o with
      | listenThread => trivial
      | taskThread i =>
        have hpast : Below s.m_taskthread j i := hpast
        exact ⟨hpast.ne hj, hpast.mono j.le_succ⟩
  | clear =>
    obtain ⟨rfl, rfl⟩ := Prod.mk.inj (Option.some.inj hadvance)
    have hcleared : Ordered tr { s with m_taskthread := [] } := h.keep rfl (Or.inr rfl)
    exact hcleared.goOn hr trivial fun o _ => by cases o <;> trivial
  | null =>
    obtain ⟨rfl, rfl⟩ := Prod.mk.inj (Option.some.inj hadvance)
    have hnull : Ordered tr { s with g_ListenThread := false } := h.keep rfl (Or.inl rfl)
    exact hnull.goOn hr trivial fun o _ => by cases o <;> trivial

variable {n : ℕ}

theorem Ordered.next (h : Ordered tr s) (hstep : s.step a = some t) : Ordered (tr ++ [a]) t := by
  cases step_cases hstep with
  | signal =>
    refine Ordered.snoc ⟨h.sorted, fun r pc hr => ?_, fun r o fd hmem => ?_⟩ (by simp)
    · rcases Interrupts.run_enter_cases hr with hr | rfl
      · exact h.picked r pc hr
      · trivial
    · obtain ⟨pc, hr, hold⟩ := h.closed r o fd hmem
      exact ⟨pc, Interrupts.run_enter hr, hold⟩
  | go hr hadvance => exact (h.advance hr hadvance).snoc (by simp)
  | close hr hcloses =>
    obtain ⟨-, hpicked, hnew, hpast⟩ := h.past hr hcloses
    refine (h.goOn hr hpicked hpast).snoc ?_
    rintro r' o' fd ⟨⟩
    exact ⟨_, Interrupts.run_goOn_self hr, hnew⟩

theorem Ordered.of_reaches (h : (deletionMachine T n).Reaches tr s) : Ordered tr s :=
  h.history (fun hs => hs ▸ Ordered.init n) fun _ hs hstep => hs.next hstep

end Deletion
end EpollThreads.Shutdown
