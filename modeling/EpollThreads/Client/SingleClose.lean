import EpollThreads.Client.Descriptors
import EpollThreads.Foundations.Cursor

/-!
# Closes of a `Test`

`iClose` and `~Test` close the same member, and `~iEpoll` another one. `iClose`
runs at most once for an object: an object whose thread went through it is
registered no more, and `main` registers it once. A run of `sigtermHandler`
destroys an object at most once, as `g_Test` names the objects in the order of
their construction, whoever fills or clears it meanwhile; but another run may
destroy it again.
-/

namespace EpollThreads.Client

open Foundations

namespace ClientState

variable {threads : ℤ} {s t : ClientState} {a : Action} {tr : List Action}

@[simp] theorem closeFd_pc (fd : ℤ) (i : ℕ) : ((s.closeFd fd).tests i).pc = (s.tests i).pc := by
  simp only [closeFd]
  split_ifs <;> rfl

@[simp] theorem closeFd_m_sockfd (fd : ℤ) (i : ℕ) :
    ((s.closeFd fd).tests i).m_sockfd = (s.tests i).m_sockfd := by
  simp only [closeFd]
  split_ifs <;> rfl

theorem opened_invalid (h : s.files (-1) = none) (fd : ℤ) (m : Member) (i : ℕ) :
    s.opened fd m i (-1) = none := by
  unfold opened
  split_ifs with hneg
  · exact h
  · rw [Function.update_of_ne (Ne.symm hneg)]
    exact h

theorem registered_of_closeFd {fd : ℤ} {i : ℕ} (h : ((s.closeFd fd).tests i).registered = true) :
    (s.tests i).registered = true := by
  simp only [closeFd] at h
  split_ifs at h
  exact h

/-- Between the report of an event and the end of `iClose`. -/
def Closing (x : TestObject) : Prop := x.pc = .closing ∨ x.pc = .removed

/-- What is known of the objects: registered or closing ones have a socket and are behind
`main`; one that went through `iClose` is neither. -/
structure Settled (tr : List Action) (s : ClientState) : Prop where
  invalid : s.files (-1) = none
  active : ∀ i, (s.tests i).registered = true ∨ Closing (s.tests i) →
    i < s.main.index ∧ (s.tests i).m_sockfd ≠ -1
  removed : ∀ i, (s.tests i).pc = .removed → (s.tests i).registered = false
  closed : ∀ i fd, .close i fd ∈ tr →
    fd ≠ -1 ∧ i < s.main.index ∧ ¬((s.tests i).registered = true ∨ Closing (s.tests i))

theorem Settled.init (h : Start s) : Settled [] s where
  invalid := h.files _
  active i hi := by simp [h.tests i, Closing] at hi
  removed i hi := by simp [h.tests i] at hi
  closed := by simp

theorem Settled.snoc (h : Settled tr s)
    (hclose : ∀ i fd, a = .close i fd →
      fd ≠ -1 ∧ i < s.main.index ∧ ¬((s.tests i).registered = true ∨ Closing (s.tests i))) :
    Settled (tr ++ [a]) s where
  invalid := h.invalid
  active := h.active
  removed := h.removed
  closed i fd hmem := by
    rcases List.mem_append.mp hmem with hmem | hmem
    · exact h.closed i fd hmem
    · exact hclose i fd (List.mem_singleton.mp hmem).symm

theorem Settled.keep (h : Settled tr s) (hinvalid : t.files (-1) = none)
    (hindex : s.main.index ≤ t.main.index)
    (hnew : ∀ i, (t.tests i).registered = true ∨ Closing (t.tests i) →
      ((s.tests i).registered = true ∨ Closing (s.tests i)) ∧
          (t.tests i).m_sockfd = (s.tests i).m_sockfd ∨
        s.main.index ≤ i ∧ i < t.main.index ∧ (t.tests i).m_sockfd ≠ -1)
    (hremoved : ∀ i, (t.tests i).pc = .removed → (t.tests i).registered = false) :
    Settled tr t where
  invalid := hinvalid
  active i hi := by
    rcases hnew i hi with ⟨hold, hfd⟩ | ⟨-, hlt, hfd⟩
    · obtain ⟨hlt, hsock⟩ := h.active i hold
      exact ⟨hlt.trans_le hindex, hfd ▸ hsock⟩
    · exact ⟨hlt, hfd⟩
  removed := hremoved
  closed i fd hmem := by
    obtain ⟨hfd, hlt, hquiet⟩ := h.closed i fd hmem
    refine ⟨hfd, hlt.trans_le hindex, fun hi => ?_⟩
    rcases hnew i hi with ⟨hold, -⟩ | ⟨hle, -⟩
    · exact hquiet hold
    · omega

theorem Settled.removed_setTest (h : Settled tr s) {i : ℕ} {x : TestObject}
    (hx : x.pc = .removed → x.registered = false) (j : ℕ)
    (hj : ((s.setTest i x).tests j).pc = .removed) :
    ((s.setTest i x).tests j).registered = false := by
  by_cases hji : j = i
  · subst hji
    simp only [ClientState.setTest, Function.update_self] at hj ⊢
    exact hx hj
  · simp only [ClientState.setTest, Function.update_of_ne hji] at hj ⊢
    exact h.removed j hj

theorem Settled.setTest (h : Settled tr s) {i : ℕ} {x : TestObject}
    (hremoved : x.pc = .removed → x.registered = false)
    (hx : x.registered = true ∨ Closing x →
      ((s.tests i).registered = true ∨ Closing (s.tests i)) ∧
        x.m_sockfd = (s.tests i).m_sockfd) : Settled tr (s.setTest i x) := by
  refine h.keep h.invalid le_rfl ?_ (h.removed_setTest hremoved)
  intro j hj
  by_cases hji : j = i
  · subst hji
    simp only [ClientState.setTest, Function.update_self] at hj ⊢
    exact Or.inl (hx hj)
  · simp only [ClientState.setTest, Function.update_of_ne hji] at hj ⊢
    exact Or.inl ⟨hj, trivial⟩

/-- `close` removes registrations and nothing else of the objects. -/
theorem active_of_closeFd {fd : ℤ} {i : ℕ}
    (h : ((s.closeFd fd).tests i).registered = true ∨ Closing ((s.closeFd fd).tests i)) :
    (s.tests i).registered = true ∨ Closing (s.tests i) := by
  unfold Closing at h ⊢
  rw [closeFd_pc] at h
  exact h.imp_left registered_of_closeFd

theorem closeFd_invalid {fd : ℤ} (h : s.files (-1) = none) : (s.closeFd fd).files (-1) = none := by
  by_cases hfd : (-1 : ℤ) = fd
  · simp [ClientState.closeFd, ← hfd]
  · simpa [ClientState.closeFd, Function.update_of_ne hfd] using h

/-- A `close` in front of the trace's last action leaves the objects settled. -/
theorem Settled.closeFd (h : Settled tr s) (fd : ℤ) : Settled tr (s.closeFd fd) where
  invalid := closeFd_invalid h.invalid
  active i hi := by
    rw [closeFd_m_sockfd]
    exact h.active i (active_of_closeFd hi)
  removed i hi := by
    rw [closeFd_pc] at hi
    by_contra hreg
    have hold := registered_of_closeFd (Bool.eq_true_of_not_eq_false hreg)
    rw [h.removed i hi] at hold
    cases hold
  closed i fd hmem := by
    obtain ⟨hfd, hlt, hquiet⟩ := h.closed i fd hmem
    exact ⟨hfd, hlt, fun hi => hquiet (active_of_closeFd hi)⟩

/-- The handler's own variables and `g_Test` do not matter. -/
theorem Settled.handling (h : Settled tr s) (hfiles : t.files = s.files)
    (htests : t.tests = s.tests) (hmain : t.main = s.main) : Settled tr t := by
  refine h.keep (hfiles ▸ h.invalid) (hmain ▸ le_rfl) (fun i hi => Or.inl ?_) fun i hi => ?_
  · rw [htests] at hi ⊢
    exact ⟨hi, rfl⟩
  · rw [htests] at hi ⊢
    exact h.removed i hi

theorem Settled.next (h : Settled tr s) (hstep : s.step threads a = some t) :
    Settled (tr ++ [a]) t := by
  cases step_cases hstep with
  | @construct started epfd i hmain hfd =>
    have hfresh : (if started then TestPc.test else .notStarted) ≠ .removed := by
      cases started <;> simp
    refine Settled.snoc (h.keep (opened_invalid h.invalid _ _ _) (by simp [MainPc.index, hmain])
      ?_ (h.removed_setTest fun hpc => absurd hpc hfresh)) (by simp)
    intro j hj
    by_cases hji : j = i
    · subst hji
      cases started <;> simp [ClientState.setTest, Closing] at hj
    · simp only [ClientState.setTest, Function.update_of_ne hji] at hj ⊢
      exact Or.inl ⟨hj, trivial⟩
  | @connect fd i hmain hfd =>
    refine Settled.snoc (h.keep (opened_invalid h.invalid _ _ _) (by simp [MainPc.index, hmain])
      ?_ (h.removed_setTest (h.removed i))) (by simp)
    intro j hj
    by_cases hji : j = i
    · subst hji
      simp only [ClientState.setTest, Function.update_self] at hj
      have hlt := (h.active j hj).1
      simp [hmain, MainPc.index] at hlt
    · simp only [ClientState.setTest, Function.update_of_ne hji] at hj ⊢
      exact Or.inl ⟨hj, trivial⟩
  | @add ok i hmain hok =>
    have hidle : ¬Closing (s.tests i) := fun hpc => by
      have hlt := (h.active i (Or.inr hpc)).1
      simp [hmain, MainPc.index] at hlt
    refine Settled.snoc (h.keep h.invalid (by simp [MainPc.index, hmain]) ?_
      (h.removed_setTest fun hpc => absurd (Or.inr hpc) hidle)) (by simp)
    intro j hj
    by_cases hji : j = i
    · subst hji
      simp only [ClientState.setTest, Function.update_self, hmain, MainPc.index] at hj ⊢
      refine Or.inr ⟨le_rfl, Nat.lt_succ_self j, fun hfd => ?_⟩
      have hsock := hok (hj.resolve_right hidle)
      rw [hfd, h.invalid] at hsock
      cases hsock
    · simp only [ClientState.setTest, Function.update_of_ne hji] at hj ⊢
      exact Or.inl ⟨hj, trivial⟩
  | @loop i hpc =>
    refine Settled.snoc (h.setTest ?_ fun hx => ?_) (by simp) <;>
      cases hs : s.shutdown <;> simp_all [Closing]
  | @wait i hpc =>
    refine Settled.snoc (h.setTest ?_ fun hx => ?_) (by simp) <;> simp_all [Closing]
  | @event i nRet hpc hreg =>
    have hpc' : (if nRet < 0 then TestPc.closing else .test) ≠ .removed := by
      split_ifs <;> simp
    refine Settled.snoc (h.setTest (fun hx => absurd hx hpc') fun _ => ?_) (by simp)
    exact ⟨Or.inl hreg, rfl⟩
  | @remove i hpc =>
    refine Settled.snoc (h.setTest (fun _ => rfl) fun _ => ?_) (by simp)
    exact ⟨Or.inr (Or.inl hpc), rfl⟩
  | signal | found | done | clear =>
    exact Settled.snoc (h.handling rfl rfl rfl) (by simp)
  | @close i hpc =>
    obtain ⟨hlt, hfd⟩ := h.active i (Or.inr (Or.inr hpc))
    have hidle : Settled tr (s.setTest i { s.tests i with pc := .test }) :=
      h.setTest (fun hx => absurd hx (by simp)) fun _ => ⟨Or.inr (Or.inr hpc), rfl⟩
    refine (hidle.closeFd _).snoc ?_
    rintro j fd ⟨⟩
    refine ⟨hfd, hlt, fun hi => ?_⟩
    simpa [ClientState.setTest, Closing, h.removed i hpc] using active_of_closeFd hi
  | @destroy r m j i hr =>
    exact Settled.snoc ((h.closeFd ((s.tests i).member m)).handling rfl rfl rfl) (by simp)

theorem Settled.of_reaches (h : (clientMachine threads).Reaches tr s) : Settled tr s :=
  h.history Settled.init fun _ hs hstep => hs.next hstep

section Runs

/-- The objects that have been pushed to `g_Test`. -/
def constructed : MainPc → ℕ
  | .construct i => i
  | .connect i => i + 1
  | .add i => i + 1

/-- A run of the handler that goes on at index `j` meets later objects only. -/
def Later (s : ClientState) (j i : ℕ) : Prop :=
  i < constructed s.main ∧ Below s.g_Test j i

/-- The run is past the `close` of member `m` of object `i`. -/
def Past (s : ClientState) (m : Member) (i : ℕ) : HandlerPc → Prop
  | .check j => s.Later j i
  | .delete m' j pTest => (i = pTest → m = .m_sockfd ∧ m' = .m_epfd) ∧ s.Later (j + 1) i
  | .clear | .cleared => True

/-- What the run has taken from `g_Test` is before what it will take. -/
def Picked (s : ClientState) : HandlerPc → Prop
  | .delete _ j pTest => s.Later (j + 1) pTest
  | _ => True

/-- `g_Test` names objects in the order of their construction, and each run of the handler is
past those that it has destroyed. -/
structure Ordered (tr : List Action) (s : ClientState) : Prop where
  sorted : s.g_Test.Pairwise (· < ·)
  pushed : ∀ x ∈ s.g_Test, x < constructed s.main
  picked : ∀ r pc, s.frames.run r = some pc → s.Picked pc
  destroyed : ∀ r m i fd, .destroy r m i fd ∈ tr → ∃ pc, s.frames.run r = some pc ∧ s.Past m i pc

theorem Ordered.init (h : Start s) : Ordered [] s where
  sorted := by simp [h.g_Test]
  pushed := by simp [h.g_Test]
  picked r pc hr := by simp [h.frames] at hr
  destroyed := by simp

theorem Ordered.snoc (h : Ordered tr s)
    (hdestroy : ∀ r m i fd, a = .destroy r m i fd →
      ∃ pc, s.frames.run r = some pc ∧ s.Past m i pc) :
    Ordered (tr ++ [a]) s where
  sorted := h.sorted
  pushed := h.pushed
  picked := h.picked
  destroyed r m i fd hmem := by
    rcases List.mem_append.mp hmem with hmem | hmem
    · exact h.destroyed r m i fd hmem
    · exact hdestroy r m i fd (List.mem_singleton.mp hmem).symm

/-- `g_Test` may get later objects or lose all. -/
theorem Ordered.keep (h : Ordered tr s) (hframes : t.frames = s.frames)
    (hsorted : t.g_Test.Pairwise (· < ·)) (hpushed : ∀ x ∈ t.g_Test, x < constructed t.main)
    (hlater : ∀ j i, s.Later j i → t.Later j i) : Ordered tr t where
  sorted := hsorted
  pushed := hpushed
  picked r pc hr := by
    have hold := h.picked r pc (hframes ▸ hr)
    cases pc with
    | delete m j pTest => exact hlater _ _ hold
    | _ => trivial
  destroyed r m i fd hmem := by
    obtain ⟨pc, hr, hpast⟩ := h.destroyed r m i fd hmem
    refine ⟨pc, hframes ▸ hr, ?_⟩
    cases pc with
    | check j => exact hlater _ _ hpast
    | delete m' j pTest => exact ⟨hpast.1, hlater _ _ hpast.2⟩
    | _ => trivial

theorem Ordered.quiet (h : Ordered tr s) (hframes : t.frames = s.frames)
    (hg : t.g_Test = s.g_Test) (hmain : constructed t.main = constructed s.main) :
    Ordered tr t :=
  h.keep hframes (hg ▸ h.sorted) (by rw [hg, hmain]; exact h.pushed)
    fun j i hl => by unfold Later; rw [hg, hmain]; exact hl

theorem Ordered.goOn (h : Ordered tr s) {r : HandlerRun} {pc pc' : HandlerPc}
    (hr : s.frames.run r = some pc) (hpicked : s.Picked pc')
    (hpast : ∀ m i, s.Past m i pc → s.Past m i pc') : Ordered tr (s.goOn r pc') where
  sorted := h.sorted
  pushed := h.pushed
  picked := by
    have hall := Interrupts.forall_goOn (P := fun _ => s.Picked) h.picked hr hpicked
    intro r' q hq
    have hold := hall r' q hq
    cases q <;> exact hold
  destroyed r' m i fd hmem := by
    obtain ⟨q, hq, hold⟩ :=
      Interrupts.exists_goOn (h.destroyed r' m i fd hmem) hr (hpast m i)
    exact ⟨q, hq, by cases q <;> exact hold⟩

/-- A run closes the members of the object it has picked, one after the other. -/
theorem Ordered.destroy (h : Ordered tr s) {r : HandlerRun} {m : Member} {j i : ℕ} {fd : ℤ}
    (hr : s.frames.run r = some (.delete m j i)) :
    Ordered (tr ++ [.destroy r m i fd]) (s.goOn r (.next j i m)) := by
  have hpicked : s.Later (j + 1) i := h.picked r _ hr
  cases m with
  | m_sockfd =>
    refine Ordered.snoc (h.goOn hr hpicked fun m i' hx => ⟨fun hi => ?_, hx.2⟩) ?_
    · cases (hx.1 hi).2
    · rintro r' m i' fd' ⟨⟩
      exact ⟨_, Interrupts.run_goOn_self hr, fun _ => ⟨rfl, rfl⟩, hpicked⟩
  | m_epfd =>
    refine Ordered.snoc (h.goOn hr trivial fun m i' hx => hx.2) ?_
    rintro r' m i' fd' ⟨⟩
    exact ⟨_, Interrupts.run_goOn_self hr, hpicked⟩

theorem Ordered.next (h : Ordered tr s) (hstep : s.step threads a = some t) :
    Ordered (tr ++ [a]) t := by
  cases step_cases hstep with
  | @construct started epfd i hmain hfd =>
    have hnew : constructed s.main = i := by rw [hmain]; rfl
    have hgrows : constructed s.main < constructed (.connect i) := hnew ▸ Nat.lt_succ_self i
    refine Ordered.snoc (h.keep rfl ?_ ?_ ?_) (by simp)
    · refine List.pairwise_append.mpr ⟨h.sorted, List.pairwise_singleton _ _, ?_⟩
      intro x hx y hy
      rw [List.mem_singleton.mp hy, ← hnew]
      exact h.pushed x hx
    · intro x hx
      rcases List.mem_append.mp hx with hx | hx
      · exact (h.pushed x hx).trans hgrows
      · simp [constructed, List.mem_singleton.mp hx]
    · rintro j x ⟨hx, hbelow⟩
      refine ⟨hx.trans hgrows, hbelow.append fun y hy => ?_⟩
      rw [List.mem_singleton.mp hy, ← hnew]
      exact hx
  | connect hmain | add hmain =>
    exact Ordered.snoc (h.quiet rfl rfl (by simp [hmain, constructed])) (by simp)
  | loop | wait | event | remove | close =>
    exact Ordered.snoc (h.quiet rfl rfl rfl) (by simp)
  | signal =>
    refine Ordered.snoc ⟨h.sorted, h.pushed, fun r pc hr => ?_, fun r m i fd hmem => ?_⟩
      (by simp)
    · rcases Interrupts.run_enter_cases hr with hr | rfl
      · have hold := h.picked r pc hr
        cases pc <;> exact hold
      · trivial
    · obtain ⟨pc, hr, hold⟩ := h.destroyed r m i fd hmem
      exact ⟨pc, Interrupts.run_enter hr, by cases pc <;> exact hold⟩
  | @found r j i hr hi =>
    have hlater : s.Later (j + 1) i :=
      ⟨h.pushed _ (List.mem_of_getElem? hi), .of_sorted h.sorted hi⟩
    exact Ordered.snoc (h.goOn hr hlater fun m x hx =>
      ⟨fun hxi => (hx.2.ne hi hxi).elim, hx.1, hx.2.mono j.le_succ⟩) (by simp)
  | done hr => exact Ordered.snoc (h.goOn hr trivial fun _ _ _ => trivial) (by simp)
  | @destroy r m j i hr =>
    have hclosed : Ordered tr (s.closeFd ((s.tests i).member m)) := h.quiet rfl rfl rfl
    exact hclosed.destroy hr
  | clear hr =>
    have hcleared : Ordered tr { s with g_Test := [] } :=
      h.keep rfl List.Pairwise.nil (by simp) fun j i hl => ⟨hl.1, .nil⟩
    exact Ordered.snoc (hcleared.goOn hr trivial fun _ _ _ => trivial) (by simp)

theorem Ordered.of_reaches (h : (clientMachine threads).Reaches tr s) : Ordered tr s :=
  h.history Ordered.init fun _ hs hstep => hs.next hstep

end Runs

end ClientState

section Trace

variable {tr : List Action} {a : Action} {i : ℕ} {fd : ℤ}

end Trace

end EpollThreads.Client
