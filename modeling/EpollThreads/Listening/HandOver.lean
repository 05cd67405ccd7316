import EpollThreads.Foundations.Observation
import EpollThreads.Listening.Listen

/-!
# From `accept` to `AssignTask`

Between the two stand up to two messages. Nothing that `select`, `accept` or
`shutdown` do can come between them; only a log mutex that is held for good can.
-/

namespace EpollThreads.Listening

open Foundations Logging

/-- A descriptor that `accept` returned, or one that `AssignTask` is called with. -/
inductive Passage
  | accepted (fd : ℕ)
  | assigned (sockfd : ℤ)
  deriving DecidableEq, Repr

def observe (s : ListenThread) : RunOp → Option Passage
  | .listen (.accept (.connected fd)) => some (.accepted fd)
  | .assign => some (.assigned s.sockfd)
  | _ => none

/-- The descriptors that `accept` returned. -/
def accepted (l : List Passage) : List ℤ :=
  l.filterMap fun
    | .accepted fd => some fd
    | .assigned _ => none

/-- The descriptors passed to `AssignTask`. -/
def assigned (l : List Passage) : List ℤ :=
  l.filterMap fun
    | .assigned sockfd => some sockfd
    | .accepted _ => none

@[simp] theorem accepted_append (l l' : List Passage) :
    accepted (l ++ l') = accepted l ++ accepted l' := List.filterMap_append

@[simp] theorem assigned_append (l l' : List Passage) :
    assigned (l ++ l') = assigned l ++ assigned l' := List.filterMap_append

@[simp] theorem accepted_accepted (fd : ℕ) : accepted [.accepted fd] = [(fd : ℤ)] := rfl

@[simp] theorem accepted_assigned (sockfd : ℤ) : accepted [.assigned sockfd] = [] := rfl

@[simp] theorem assigned_accepted (fd : ℕ) : assigned [.accepted fd] = [] := rfl

@[simp] theorem assigned_assigned (sockfd : ℤ) : assigned [.assigned sockfd] = [sockfd] := rfl

/-- In `Listen`, with a connected socket and a message still to be logged. -/
@[simp] def ListenPc.Connected : ListenPc → Prop
  | .nonBlock | .fcntlErr | .newClient => True
  | _ => False

instance (pc : ListenPc) : Decidable pc.Connected := by
  cases pc <;> unfold ListenPc.Connected <;> infer_instance

namespace ListenThread

/-- The socket that has been accepted and not yet passed on. -/
def inHand (s : ListenThread) : List ℤ :=
  match s.pc with
  | .listen c => if c.pc.Connected then [c.sockfd] else []
  | .assign => [s.sockfd]
  | _ => []

/-- There is a message to log before the socket is passed on. -/
def Waits (s : ListenThread) : Prop := ∃ c, s.pc = .listen c ∧ c.pc.Connected

/-- The thread can go on to pass on what it has in hand, and nothing else. -/
def CanPass (verbosity : ℤ) (s : ListenThread) : Prop :=
  ∃ tr t, (runMachine verbosity).Run s tr t ∧
    (runMachine verbosity).record observe s tr = s.inHand.map .assigned

/-- The sockets passed on are those accepted, each once and in order, but for the one in hand. -/
def InOrder (s : ListenThread) (l : List Passage) : Prop := accepted l = assigned l ++ s.inHand

/-- Moreover the one in hand can be passed on. -/
def HandedOver (verbosity : ℤ) (s : ListenThread) (l : List Passage) : Prop :=
  s.InOrder l ∧ s.CanPass verbosity

/-- No socket is accepted while the log mutex is held for good, and it is not lost while a
socket waits for its messages. -/
def Unhindered (s : ListenThread) : RunOp → Prop
  | .listen (.accept (.connected _)) => s.held = false
  | .lose => ¬s.Waits
  | _ => True

/-- What a step does to the socket in hand and to the log mutex. -/
inductive Passes (verbosity : ℤ) (s : ListenThread) : RunOp → ListenThread → Prop
  | shutdown : Passes verbosity s .shutdown { s with shutdown := true }
  | lose (h : MY_DEBUG < verbosity) : Passes verbosity s .lose { s with held := true }
  | idle {a : RunOp} {t : ListenThread} (hobs : observe s a = none) (hs : s.inHand = [])
      (ht : t.inHand = []) (ha : s.Unhindered a) : Passes verbosity s a t
  | accept {c : ListenCall} (fd : ℕ) (hs : s.inHand = []) :
      Passes verbosity s (.listen (.accept (.connected fd)))
        { s with sockfd := fd, pc := .listen { c with sockfd := fd, pc := .nonBlock } }
  | fcntl {c : ListenCall} (ok : Bool) (hpc : s.pc = .listen c) (hc : c.pc = .nonBlock) :
      Passes verbosity s (.listen (.fcntl ok))
        { s with
          sockfd := c.sockfd
          pc := .listen { c with pc := if ok then .newClient else .fcntlErr } }
  | fcntlErr {c : ListenCall} {held : Bool} (hpc : s.pc = .listen c) (hc : c.pc = .fcntlErr)
      (hlog : myepollLog verbosity MY_WARNING s.held = some held) :
      Passes verbosity s (.listen .log)
        { s with held := held, sockfd := c.sockfd, pc := .listen { c with pc := .newClient } }
  | newClient {c : ListenCall} {held : Bool} (hpc : s.pc = .listen c) (hc : c.pc = .newClient)
      (hlog : myepollLog verbosity MY_DEBUG s.held = some held) :
      Passes verbosity s (.listen .log) { s with held := held, sockfd := c.sockfd, pc := .assign }
  | assign (hpc : s.pc = .assign) : Passes verbosity s .assign { s with pc := .test }

section Steps

variable {verbosity : ℤ} {s t : ListenThread} {a : RunOp}

theorem inHand_of_connected {c : ListenCall} (hpc : s.pc = .listen c) (hc : c.pc.Connected) :
    s.inHand = [c.sockfd] := by
  rw [inHand, hpc]
  exact if_pos hc

theorem inHand_of_waits (h : s.Waits) : ∃ sockfd, s.inHand = [sockfd] := by
  obtain ⟨c, hpc, hc⟩ := h
  exact ⟨c.sockfd, inHand_of_connected hpc hc⟩

theorem not_waits_of_inHand (h : s.inHand = []) : ¬s.Waits := by
  intro hw
  obtain ⟨sockfd, hs⟩ := inHand_of_waits hw
  rw [h] at hs
  cases hs

theorem inHand_resume {c : ListenCall} (hc : ¬c.pc.Connected) (hret : c.pc ≠ .returned 0) :
    (s.resume c).inHand = [] := by
  unfold resume inHand
  cases hpc : c.pc with
  | returned nRet =>
    have hne : nRet ≠ 0 := by
      rintro rfl
      exact hret hpc
    simp [hne]
  | _ => simp_all

theorem inHand_listen {c : ListenCall} (hpc : s.pc = .listen c) (hc : ¬c.pc.Connected) :
    s.inHand = [] := by
  rw [inHand, hpc]
  exact if_neg hc

theorem passes_of_listen {op : ListenOp} (h : s.listenStep verbosity op = some t) :
    Passes verbosity s (.listen op) t := by
  unfold listenStep at h
  cases hpc : s.pc with
  | listen c =>
    rw [hpc] at h
    obtain ⟨held, hmutex, h⟩ := Option.bind_eq_some_iff.mp h
    obtain ⟨c', hc', rfl⟩ := Option.map_eq_some_iff.mp h
    -- a step between two positions without a connected socket
    have quiet (hobs : observe s (.listen op) = none) (hu : s.Unhindered (.listen op))
        (hc : ¬c.pc.Connected) (hconn : ¬c'.pc.Connected) (hret : c'.pc ≠ .returned 0) :
        Passes verbosity s (.listen op) ({ s with held := held }.resume c') :=
      .idle hobs (inHand_listen hpc hc) (inHand_resume hconn hret) hu
    cases op with
    | test shutdown =>
      simp only [ListenCall.step, Option.ite_none_right_eq_some, Option.some.injEq] at hc'
      obtain ⟨hc, rfl⟩ := hc'
      cases shutdown <;> exact quiet rfl trivial (by simp [hc]) id (by simp)
    | select o =>
      simp only [ListenCall.step, Option.ite_none_right_eq_some, Option.some.injEq] at hc'
      obtain ⟨hc, rfl⟩ := hc'
      refine quiet rfl trivial (by simp [hc]) ?_ ?_
      · rcases o with _ | _ | ⟨_ | _, _⟩ <;> exact id
      · rcases o with _ | _ | ⟨_ | _, _⟩ <;> simp [ListenCall.afterSelect]
    | accept o =>
      simp only [ListenCall.step, Option.ite_none_right_eq_some, Option.some.injEq] at hc'
      obtain ⟨hc, rfl⟩ := hc'
      cases o with
      | fail errno =>
        refine quiet rfl trivial (by simp [hc]) ?_ ?_ <;>
          simp only [ListenCall.afterAccept] <;> split_ifs <;> simp
      | connected fd =>
        obtain rfl := Option.some.inj hmutex
        exact .accept fd (inHand_listen hpc (by simp [hc]))
    | fcntl ok =>
      simp only [ListenCall.step, Option.ite_none_right_eq_some, Option.some.injEq] at hc'
      obtain ⟨hc, rfl⟩ := hc'
      obtain rfl := Option.some.inj hmutex
      have hmove : Passes verbosity s _ _ := .fcntl ok hpc hc
      cases ok <;> exact hmove
    | log =>
      cases hc : c.pc with
      | fcntlErr =>
        simp only [ListenCall.step, mutexAfter, hc, Option.some.injEq] at hc' hmutex
        subst hc'
        have hmove := Passes.fcntlErr hpc hc hmutex
        exact hmove
      | newClient =>
        simp only [ListenCall.step, mutexAfter, hc, Option.some.injEq] at hc' hmutex
        subst hc'
        have hmove := Passes.newClient hpc hc hmutex
        exact hmove
      | failed =>
        simp only [ListenCall.step, hc, Option.some.injEq] at hc'
        subst hc'
        exact quiet rfl trivial (by simp [hc]) id (by simp)
      | _ => simp [ListenCall.step, hc] at hc'
  | _ =>
    rw [hpc] at h
    cases h

theorem step_cases (h : s.step verbosity a = some t) : Passes verbosity s a t := by
  cases a with
  | shutdown => exact Option.some.inj h ▸ .shutdown
  | lose =>
    simp only [step, Option.ite_none_right_eq_some, Option.some.injEq] at h
    obtain ⟨hv, rfl⟩ := h
    exact .lose hv
  | test =>
    simp only [step, Option.ite_none_right_eq_some, Option.some.injEq] at h
    obtain ⟨hpc, rfl⟩ := h
    refine .idle rfl (by simp [inHand, hpc]) ?_ trivial
    cases s.shutdown <;> simp [inHand, ListenCall.enter]
  | listen op => exact passes_of_listen h
  | assign =>
    simp only [step, Option.ite_none_right_eq_some, Option.some.injEq] at h
    obtain ⟨hpc, rfl⟩ := h
    exact .assign hpc

variable {l : List Passage}

theorem InOrder.silent (ho : s.InOrder l) (hobs : observe s a = none)
    (hin : t.inHand = s.inHand) : t.InOrder (l ++ (observe s a).toList) := by
  rw [hobs, Option.toList_none, List.append_nil]
  exact Eq.trans ho (by rw [hin])

theorem InOrder.step (ho : s.InOrder l) (h : s.step verbosity a = some t) :
    t.InOrder (l ++ (observe s a).toList) := by
  have horder : accepted l = assigned l ++ s.inHand := ho
  cases step_cases h with
  | shutdown | lose => exact ho.silent rfl rfl
  | idle hobs hs ht => exact ho.silent hobs (ht.trans hs.symm)
  | accept fd hs =>
    rw [hs, List.append_nil] at horder
    simp [InOrder, horder, observe, inHand]
  | fcntl ok hpc hc =>
    refine ho.silent rfl ?_
    cases ok <;> simp [inHand, hpc, hc]
  | fcntlErr hpc hc | newClient hpc hc =>
    exact ho.silent rfl (by simp [inHand, hpc, hc])
  | assign hpc => simp [InOrder, horder, observe, inHand, hpc]

/-- The mutex is free as long as a message is to come. -/
def MutexFree (s : ListenThread) : Prop := s.Waits → s.held = false

theorem MutexFree.step (hf : s.MutexFree) (hv : verbosity ≤ MY_WARNING) (ha : s.Unhindered a)
    (h : s.step verbosity a = some t) : t.MutexFree := by
  cases step_cases h with
  | shutdown => exact hf
  | lose _ => exact fun hw => absurd hw ha
  | idle _ _ ht _ => exact fun hw => absurd hw (not_waits_of_inHand ht)
  | accept fd _ => exact fun _ => ha
  | fcntl ok hpc hc =>
    have hconn : ListenPc.nonBlock.Connected := trivial
    exact fun _ => hf ⟨_, hpc, hc ▸ hconn⟩
  | fcntlErr hpc hc hlog =>
    have hconn : ListenPc.fcntlErr.Connected := trivial
    rw [hf ⟨_, hpc, hc ▸ hconn⟩] at hlog
    intro _
    -- a warning is not filtered, so the mutex is free again
    rw [← Option.some.inj hlog, decide_eq_false_iff_not, not_lt]
    exact hv
  | newClient | assign =>
    rintro ⟨_, hpc, _⟩
    cases hpc

theorem CanPass.of_step (h : s.step verbosity a = some t) (hobs : observe s a = none)
    (hin : t.inHand = s.inHand) (ht : t.CanPass verbosity) : s.CanPass verbosity := by
  obtain ⟨tr, u, hrun, hrecord⟩ := ht
  have hstep : (runMachine verbosity).step s a = some t := h
  refine ⟨a :: tr, u, (Machine.Run.single hstep).append hrun, ?_⟩
  rw [Machine.record, hobs, hstep, Option.elim_some, hrecord, hin]
  rfl

theorem canPass_of_nil (h : s.inHand = []) : s.CanPass verbosity :=
  ⟨[], s, .nil s, by rw [h]; rfl⟩

theorem canPass_assign (hpc : s.pc = .assign) : s.CanPass verbosity := by
  have hstep : (runMachine verbosity).step s .assign = some { s with pc := .test } := if_pos hpc
  refine ⟨[.assign], _, .single hstep, ?_⟩
  simp [Machine.record, hstep, observe, inHand, hpc]

theorem canPass_newClient {c : ListenCall} (hpc : s.pc = .listen c) (hc : c.pc = .newClient)
    (hheld : s.held = false) : s.CanPass verbosity := by
  refine .of_step (a := .listen .log)
    (t := ⟨s.shutdown, decide (levelBits MY_DEBUG < verbosity), c.sockfd, .assign⟩) ?_ rfl
    (by simp [inHand, hpc, hc]) (canPass_assign rfl)
  simp [step, listenStep, hpc, mutexAfter, hc, ListenPc.level, myepollLog, hheld, ListenCall.step,
    resume]

theorem canPass_fcntlErr {c : ListenCall} (hpc : s.pc = .listen c) (hc : c.pc = .fcntlErr)
    (hheld : s.held = false) (hv : verbosity ≤ MY_WARNING) : s.CanPass verbosity := by
  refine .of_step (a := .listen .log)
    (t := ⟨s.shutdown, false, c.sockfd, .listen { c with pc := .newClient }⟩) ?_ rfl
    (by simp [inHand, hpc, hc]) (canPass_newClient rfl rfl rfl)
  have hpass : ¬levelBits MY_WARNING < verbosity := not_lt.mpr hv
  simp [step, listenStep, hpc, mutexAfter, hc, ListenPc.level, myepollLog, hheld, hpass,
    ListenCall.step, resume]

theorem canPass_nonBlock {c : ListenCall} (hpc : s.pc = .listen c) (hc : c.pc = .nonBlock)
    (hheld : s.held = false) : s.CanPass verbosity := by
  refine .of_step (a := .listen (.fcntl true))
    (t := { s with sockfd := c.sockfd, pc := .listen { c with pc := .newClient } }) ?_ rfl
    (by simp [inHand, hpc, hc]) (canPass_newClient rfl rfl hheld)
  simp [step, listenStep, hpc, mutexAfter, hc, ListenCall.step, resume]

theorem MutexFree.canPass (hf : s.MutexFree) (hv : verbosity ≤ MY_WARNING) :
    s.CanPass verbosity := by
  cases hpc : s.pc with
  | assign => exact canPass_assign hpc
  | test | returned => exact canPass_of_nil (by simp [inHand, hpc])
  | listen c =>
    by_cases hconn : c.pc.Connected
    · have hheld := hf ⟨c, hpc, hconn⟩
      cases hc : c.pc with
      | nonBlock => exact canPass_nonBlock hpc hc hheld
      | fcntlErr => exact canPass_fcntlErr hpc hc hheld hv
      | newClient => exact canPass_newClient hpc hc hheld
      | _ => simp [hc] at hconn
    · exact canPass_of_nil (inHand_listen hpc hconn)

/-- Below a level that is never filtered the mutex stays free. -/
theorem mutexAfter_of_debug {c : ListenCall} {op : ListenOp} {held : Bool}
    (hv : verbosity ≤ MY_DEBUG) (hheld : s.held = false)
    (h : s.mutexAfter verbosity c op = some held) : held = false := by
  unfold mutexAfter at h
  split at h
  · split_ifs at h
    exact Option.some.inj h ▸ hheld
  · obtain ⟨level, _, h⟩ := Option.bind_eq_some_iff.mp h
    have hlevel : MY_DEBUG ≤ levelBits level := Int.emod_nonneg level (by decide)
    rw [hheld] at h
    rw [← Option.some.inj h, decide_eq_false_iff_not, not_lt]
    exact hv.trans hlevel
  · exact Option.some.inj h ▸ hheld

theorem held_step (hv : verbosity ≤ MY_DEBUG) (hheld : s.held = false)
    (h : s.step verbosity a = some t) : t.held = false := by
  cases a with
  | shutdown => exact Option.some.inj h ▸ hheld
  | lose =>
    simp only [step, Option.ite_none_right_eq_some] at h
    exact absurd hv (not_le.mpr h.1)
  | test | assign =>
    simp only [step, Option.ite_none_right_eq_some, Option.some.injEq] at h
    exact h.2 ▸ hheld
  | listen op =>
    simp only [step, listenStep] at h
    split at h
    · obtain ⟨held, hmutex, h⟩ := Option.bind_eq_some_iff.mp h
      obtain ⟨c', _, rfl⟩ := Option.map_eq_some_iff.mp h
      exact mutexAfter_of_debug hv hheld hmutex
    · cases h

theorem record_of_lost {tr : List RunOp} (hw : s.Waits) (hheld : s.held = true)
    (h : (runMachine verbosity).Run s tr t) : (runMachine verbosity).record observe s tr = [] := by
  suffices hlost : t.Waits ∧ t.held = true ∧ (runMachine verbosity).record observe s tr = [] from
    hlost.2.2
  refine h.invariant_record (I := fun u l => u.Waits ∧ u.held = true ∧ l = []) (P := fun _ => True)
    ⟨hw, hheld, rfl⟩ ?_ fun _ _ => trivial
  rintro u a v l - ⟨hw, hheld, rfl⟩ hstep
  have hin : u.inHand ≠ [] := by
    obtain ⟨sockfd, hs⟩ := inHand_of_waits hw
    simp [hs]
  cases step_cases hstep with
  | shutdown => exact ⟨hw, hheld, rfl⟩
  | lose _ => exact ⟨hw, rfl, rfl⟩
  | idle _ hs => exact absurd hs hin
  | accept _ hs => exact absurd hs hin
  | fcntl ok _ _ => exact ⟨⟨_, rfl, by cases ok <;> trivial⟩, hheld, rfl⟩
  | fcntlErr _ _ hlog | newClient _ _ hlog => simp [myepollLog, hheld] at hlog
  | assign hpc =>
    obtain ⟨c, hpc', -⟩ := hw
    rw [hpc] at hpc'
    cases hpc'

theorem not_canPass_of_lost (hw : s.Waits) (hheld : s.held = true) : ¬s.CanPass verbosity := by
  rintro ⟨tr, t, hrun, hrecord⟩
  obtain ⟨sockfd, hs⟩ := inHand_of_waits hw
  rw [record_of_lost hw hheld hrun, hs] at hrecord
  cases hrecord

/-- A step that is hindered loses the socket it accepts or has in hand. -/
theorem lost_of_not_unhindered (ha : ¬s.Unhindered a) (h : s.step verbosity a = some t) :
    t.Waits ∧ t.held = true := by
  cases step_cases h with
  | idle _ _ _ hu => exact absurd hu ha
  | lose _ => exact ⟨not_not.mp ha, rfl⟩
  | accept fd _ => exact ⟨⟨_, rfl, trivial⟩, Bool.eq_true_of_not_eq_false ha⟩
  | _ => exact absurd trivial ha

end Steps

section Runs

variable {verbosity : ℤ} {s t : ListenThread} {tr : List RunOp}

theorem inHand_of_start (hs : s.Start) : s.inHand = [] := by
  simp [inHand, hs.2]

/-- Whatever the mutex does, nothing is passed on twice, in another order or in place of an
accepted socket. -/
theorem inOrder (hs : s.Start) (h : (runMachine verbosity).Run s tr t) :
    t.InOrder ((runMachine verbosity).record observe s tr) := by
  refine h.invariant_record (I := InOrder) (P := fun _ => True) ?_ ?_ fun _ _ => trivial
  · exact (inHand_of_start hs).symm
  · exact fun _ ho hstep => ho.step hstep

/-- Along a run of `Run` the sockets passed to `AssignTask` are those that `accept` returned,
each once and in order, exactly if no step is hindered by the log mutex. -/
theorem handed_over_iff (hv : verbosity ≤ MY_WARNING) (hs : s.Start)
    (h : (runMachine verbosity).Run s tr t) :
    ((runMachine verbosity).Everywhere s tr fun tr' u =>
        u.HandedOver verbosity ((runMachine verbosity).record observe s tr')) ↔
      (runMachine verbosity).EachStep s tr Unhindered := by
  refine h.everywhere_iff_eachStep (I := fun u l => u.InOrder l ∧ u.MutexFree) ?_ ?_ ?_ ?_
  · have hin := inHand_of_start hs
    exact ⟨hin.symm, fun hw => absurd hw (not_waits_of_inHand hin)⟩
  · exact fun ⟨ho, hf⟩ => ⟨ho, hf.canPass hv⟩
  · exact fun ⟨ho, hf⟩ ha hstep => ⟨ho.step hstep, hf.step hv ha hstep⟩
  · intro u a v l _ ha hstep hover
    obtain ⟨hw, hheld⟩ := lost_of_not_unhindered ha hstep
    exact not_canPass_of_lost hw hheld hover.2

/-- A client whose socket cannot be made non-blocking is handed over all the same. -/
theorem handed_over_iff_blocking :
    ((runMachine MY_WARNING).Everywhere ⟨false, false, -1, .test⟩
        [.test, .listen (.test false), .listen (.select (.ready true ⟨0, 400000⟩)),
          .listen (.accept (.connected 7)), .listen (.fcntl false), .listen .log, .listen .log,
          .assign] fun tr' u =>
        u.HandedOver MY_WARNING ((runMachine MY_WARNING).record observe
          ⟨false, false, -1, .test⟩ tr')) ↔
      (runMachine MY_WARNING).EachStep ⟨false, false, -1, .test⟩
        [.test, .listen (.test false), .listen (.select (.ready true ⟨0, 400000⟩)),
          .listen (.accept (.connected 7)), .listen (.fcntl false), .listen .log, .listen .log,
          .assign] Unhindered :=
  handed_over_iff le_rfl ⟨rfl, rfl⟩ (.of_isSome _ rfl)

/-- The message about the first client is filtered, and the second is never passed on. -/
theorem not_handed_over :
    ¬∀ (s t : ListenThread) (tr : List RunOp), s.Start → (runMachine MY_NOTICE).Run s tr t →
      (runMachine MY_NOTICE).Everywhere s tr fun tr' u =>
        u.HandedOver MY_NOTICE ((runMachine MY_NOTICE).record observe s tr') := by
  intro h
  have hrun : (runMachine MY_NOTICE).Run ⟨false, false, -1, .test⟩ _ _ :=
    .of_isSome [.test, .listen (.test false), .listen (.select (.ready true ⟨0, 400000⟩)),
      .listen (.accept (.connected 7)), .listen (.fcntl true), .listen .log, .assign,
      .test, .listen (.test false), .listen (.select (.ready true ⟨0, 900000⟩)),
      .listen (.accept (.connected 8))] rfl
  have hover := h _ _ _ ⟨rfl, rfl⟩ hrun _ _ List.prefix_rfl hrun
  refine not_canPass_of_lost ⟨_, rfl, ?_⟩ rfl hover.2
  trivial

/-- While every message is logged, every socket is handed over. -/
theorem handedOver_of_debug (hv : verbosity ≤ MY_DEBUG) (hs : s.Start) (hheld : s.held = false)
    (h : (runMachine verbosity).Run s tr t) :
    t.HandedOver verbosity ((runMachine verbosity).record observe s tr) := by
  have hfree : t.held = false :=
    h.invariant (I := fun u => u.held = false) (P := fun _ => True)
      (fun _ hu hstep => held_step hv hu hstep) hheld fun _ _ => trivial
  have hwarning : MY_DEBUG ≤ MY_WARNING := by decide
  exact ⟨inOrder hs h, MutexFree.canPass (fun _ => hfree) (hv.trans hwarning)⟩

end Runs

end ListenThread
end EpollThreads.Listening
