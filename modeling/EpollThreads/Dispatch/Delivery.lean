import EpollThreads.Dispatch.Accounting
import EpollThreads.Dispatch.LoggedServer

/-!
# From accept to close

What becomes of an accepted connection. While no registration fails, custody of
the descriptors is complete and every connection is registered, being closed by
its worker, or closed once; a failed registration leaves one connection open
with nobody to close it, for good. A worker that handles an event works on the
connection the event was reported for and on no other.
-/

namespace EpollThreads.Dispatch

open Foundations Events

/-- An interest list has `fd` with registration `r`. -/
def Worker.Entry (x : Worker) (fd : Fd) (r : Registration) : Prop :=
  fd ∈ x.registered ∧ x.interest fd = r

namespace Server

variable {n : ℕ} {maxclients : ℤ} {s t : Server n}

def Registered (s : Server n) (w : Fin n) (c : Conn) : Prop :=
  ∃ fd r, (s.workers w).Entry fd r ∧ r.conn = c

/-- Worker `w` is in `iClose` for `c` and has not called `close` yet. -/
def InIClose (s : Server n) (w : Fin n) (c : Conn) : Prop :=
  ∃ ev stage rest, (s.workers w).pc = .event ev stage rest ∧
    (stage = .del ∨ ∃ deleted, stage = .close deleted) ∧ ev.conn = c

/-- Where an accepted connection may be. -/
def Accounted (s : Server n) (c : Conn) : Prop :=
  ((∃! w, s.Registered w c) ∧ s.closes c = 0) ∨ ((∃! w, s.InIClose w c) ∧ s.closes c = 0) ∨
    s.closes c = 1

/-- The listener is not inside `AssignTask`. -/
def Between (s : Server n) : Prop := ∀ sockfd pc, s.listener ≠ .assigning sockfd pc

namespace Owned

theorem registered (h : Owned s) {w : Fin n} {c : Conn} (hr : s.Registered w c) :
    ∃ fd, s.files fd = some c ∧ (s.workers w).Holds fd := by
  obtain ⟨fd, r, ⟨hmem, rfl⟩, rfl⟩ := hr
  exact ⟨fd, (h.worker w).registered_open fd hmem, Or.inl hmem⟩

theorem event (h : Owned s) {w : Fin n} {ev : Event} {stage : Stage} {rest : List Event}
    (hpc : (s.workers w).pc = .event ev stage rest) (hst : stage ≠ .dec) :
    s.files ev.fd = some ev.conn ∧ (s.workers w).Holds ev.fd := by
  by_cases hr : StillRegistered stage
  · obtain ⟨hreg, hconn⟩ := (h.worker w).current hpc hr
    exact ⟨((h.worker w).registered_open ev.fd hreg).trans (by rw [hconn]), Or.inl hreg⟩
  · cases stage with
    | close deleted =>
      obtain ⟨hheld, hc, -⟩ := h.closing hpc
      exact ⟨hc, hheld⟩
    | dec => exact (hst rfl).elim
    | _ => exact (hr trivial).elim

theorem inIClose (h : Owned s) {w : Fin n} {c : Conn} (hi : s.InIClose w c) :
    ∃ fd, s.files fd = some c ∧ (s.workers w).Holds fd := by
  obtain ⟨ev, stage, rest, hpc, hst, rfl⟩ := hi
  refine ⟨ev.fd, h.event hpc ?_⟩
  rintro rfl
  simp at hst

theorem holder_unique (h : Owned s) {w w' : Fin n} {c : Conn}
    (hw : ∃ fd, s.files fd = some c ∧ (s.workers w).Holds fd)
    (hw' : ∃ fd, s.files fd = some c ∧ (s.workers w').Holds fd) : w' = w := by
  obtain ⟨fd, hc, hh⟩ := hw
  obtain ⟨fd', hc', hh'⟩ := hw'
  obtain rfl := h.files_inj fd fd' c hc hc'
  exact h.exclusive hh' hh

theorem holds_cases (h : Owned s) {w : Fin n} {fd : Fd} {c : Conn} (hc : s.files fd = some c)
    (hh : (s.workers w).Holds fd) : s.Registered w c ∨ s.InIClose w c := by
  rcases hh with hmem | ⟨ev, deleted, hcl, rfl⟩
  · have hconn := (h.worker w).registered_open fd hmem
    rw [hc, Option.some.injEq] at hconn
    exact Or.inl ⟨fd, _, ⟨hmem, rfl⟩, hconn.symm⟩
  · have hconn := ((h.worker w).closing ev deleted hcl).1
    rw [hc, Option.some.injEq] at hconn
    obtain ⟨rest, hpc⟩ : ∃ rest, (s.workers w).pc = .event ev (.close deleted) rest := by
      unfold WorkerPc.closing at hcl
      split at hcl
      · rename_i e d rest hpc
        obtain ⟨rfl, rfl⟩ := Prod.mk.inj (Option.some.inj hcl)
        exact ⟨rest, hpc⟩
      · simp at hcl
    exact Or.inr ⟨ev, _, rest, hpc, Or.inr ⟨deleted, rfl⟩, hconn.symm⟩

end Owned

/-- `close` is called on a connection at most once, and what is not open was closed. -/
structure ClosedOnce (s : Server n) : Prop where
  opened : ∀ fd c, s.files fd = some c → s.closes c = 0
  closed : ∀ c < s.accepted, (∀ fd, s.files fd ≠ some c) → s.closes c = 1
  fresh : ∀ c, s.accepted ≤ c → s.closes c = 0

namespace ClosedOnce

theorem take (h : ClosedOnce s) {fd₀ : Fd} (hfd : s.files fd₀ = none)
    (hf : t.files = Function.update s.files fd₀ (some s.accepted))
    (ha : t.accepted = s.accepted + 1) (hc : t.closes = s.closes) : ClosedOnce t where
  opened := by
    intro fd c hfd'
    rw [hf] at hfd'
    rw [hc]
    rcases Owned.update_eq_some hfd' with ⟨-, rfl⟩ | ⟨-, hfd'⟩
    · exact h.fresh _ le_rfl
    · exact h.opened fd c hfd'
  closed := by
    intro c hlt hno
    rw [hf] at hno
    rw [ha] at hlt
    rw [hc]
    have hne : c ≠ s.accepted := by
      rintro rfl
      exact hno fd₀ (Function.update_self ..)
    apply h.closed c (lt_of_le_of_ne (Nat.le_of_lt_succ hlt) hne)
    intro fd hfd'
    apply hno fd
    rwa [Function.update_of_ne]
    rintro rfl
    simp [hfd] at hfd'
  fresh := by
    intro c hle
    rw [ha] at hle
    rw [hc]
    exact h.fresh c (by omega)

theorem drop (h : ClosedOnce s) (ho : Owned s) {fd₀ : Fd} {c₀ : Conn}
    (hfd : s.files fd₀ = some c₀) (hf : t.files = Function.update s.files fd₀ none)
    (ha : t.accepted = s.accepted)
    (hc : t.closes = Function.update s.closes c₀ (s.closes c₀ + 1)) : ClosedOnce t where
  opened := by
    intro fd c hfd'
    rw [hf] at hfd'
    obtain ⟨hne, hfd'⟩ := Owned.update_none_eq_some hfd'
    have hcne : c ≠ c₀ := by
      rintro rfl
      exact hne (ho.files_inj fd fd₀ c hfd' hfd)
    rw [hc, Function.update_of_ne hcne]
    exact h.opened fd c hfd'
  closed := by
    intro c hlt hno
    rw [ha] at hlt
    rw [hc]
    by_cases he : c = c₀
    · subst he
      rw [Function.update_self, h.opened fd₀ c hfd]
    · rw [Function.update_of_ne he]
      apply h.closed c hlt
      intro fd hfd'
      apply hno fd
      rw [hf, Function.update_of_ne, hfd']
      rintro rfl
      exact he (Option.some.inj (hfd'.symm.trans hfd))
  fresh := by
    intro c hle
    have hlt := ho.files_lt fd₀ c₀ hfd
    rw [ha] at hle
    rw [hc, Function.update_of_ne (hlt.trans_le hle).ne']
    exact h.fresh c hle

theorem step (h : ClosedOnce s) (ho : Owned s) {a : Action n} (ht : Transition maxclients s a t) :
    ClosedOnce t := by
  rcases Owned.files_step ht with ⟨hf, ha, hc⟩ | ⟨fd₀, hfd, hf, ha, hc⟩ |
    ⟨fd₀, c₀, hfd, hf, ha, hc⟩
  · exact ⟨by rw [hf, hc]; exact h.opened, by rw [hf, ha, hc]; exact h.closed,
      by rw [ha, hc]; exact h.fresh⟩
  · exact h.take hfd hf ha hc
  · exact h.drop ho hfd hf ha hc

theorem of_reaches {tr : List (Action n)} (h : (serverMachine n maxclients).Reaches tr s) :
    ClosedOnce s := by
  refine h.history (Q := fun _ s => ClosedOnce s) (fun {s} (hs : Start s) => ?_)
    fun hr hs hstep => hs.step (.of_reaches hr) (step_cases hstep)
  exact ⟨fun fd c hc => by simp [hs.files fd] at hc,
    fun c hlt => by simp [hs.accepted] at hlt, fun c _ => hs.closes c⟩

end ClosedOnce

/-- Custody is complete as long as no registration fails, and has lost something after that. -/
theorem custody_of_reaches {tr : List (Action n)}
    (h : (serverMachine n maxclients).Reaches tr s) :
    (.assign (.add false) ∉ tr ∧ s.custody.Complete) ∨
      (.assign (.add false) ∈ tr ∧ ∃ fd, s.custody.Lost fd) := by
  refine h.history (Q := fun tr s => (.assign (.add false) ∉ tr ∧ s.custody.Complete) ∨
    (.assign (.add false) ∈ tr ∧ ∃ fd, s.custody.Lost fd)) (fun {s} (hs : Start s) => ?_) ?_
  · refine Or.inl ⟨by simp, fun fd hfd => ?_⟩
    obtain ⟨c, hc⟩ := hfd
    simp [hs.files fd] at hc
  · intro tr s a t hr hs hstep
    have ho := Owned.of_reaches hr
    have ht := step_cases hstep
    by_cases ha : a = .assign (.add false)
    · subst ha
      obtain ⟨fd, hl⟩ := ho.lose ht
      exact Or.inr ⟨by simp, fd, hl.lost ho.custody⟩
    · have hm := ho.move ht ha
      rcases hs with ⟨hno, hk⟩ | ⟨hmem, fd, hk⟩
      · exact Or.inl ⟨by simp [hno, Ne.symm ha], hk.move hm⟩
      · exact Or.inr ⟨by simp [hmem], fd, hk.move hm⟩

/-- A descriptor in no worker's hands is a connection that is lost. -/
theorem not_accounted (ho : Owned s) (hcl : ClosedOnce s) {fd : Fd} {c : Conn}
    (hc : s.files fd = some c) (hno : ∀ w, ¬(s.workers w).Holds fd) :
    ∃ c < s.accepted, ¬s.Accounted c := by
  have hheld : ∀ w, ¬∃ fd', s.files fd' = some c ∧ (s.workers w).Holds fd' := by
    rintro w ⟨fd', hc', hh⟩
    obtain rfl := ho.files_inj fd fd' c hc hc'
    exact hno w hh
  refine ⟨c, ho.files_lt fd c hc, ?_⟩
  rintro (⟨⟨w, hw, -⟩, -⟩ | ⟨⟨w, hw, -⟩, -⟩ | hone)
  · exact hheld w (ho.registered hw)
  · exact hheld w (ho.inIClose hw)
  · simp [hcl.opened fd c hc] at hone

theorem accounted_of_complete (ho : Owned s) (hcl : ClosedOnce s) (hb : s.Between)
    (h : s.custody.Complete) {c : Conn} (hc : c < s.accepted) : s.Accounted c := by
  by_cases hopen : ∃ fd, s.files fd = some c
  · obtain ⟨fd, hfd⟩ := hopen
    have hzero := hcl.opened fd c hfd
    obtain ⟨_ | w, hh⟩ := h fd ⟨c, hfd⟩
    · rw [custody_listener] at hh
      cases hl : s.listener with
      | assigning sockfd pc => exact (hb sockfd pc hl).elim
      | _ => rw [hl] at hh; exact hh.elim
    · rcases ho.holds_cases hfd hh with hr | hi
      · exact Or.inl ⟨⟨w, hr, fun w' hr' =>
          ho.holder_unique (ho.registered hr) (ho.registered hr')⟩, hzero⟩
      · exact Or.inr (Or.inl ⟨⟨w, hi, fun w' hi' =>
          ho.holder_unique (ho.inIClose hi) (ho.inIClose hi')⟩, hzero⟩)
  · exact Or.inr (Or.inr (hcl.closed c hc (not_exists.mp hopen)))

/-- No accepted socket is lost exactly as long as no registration has failed. -/
theorem accounted_iff_add {tr : List (Action n)} (h : (serverMachine n maxclients).Reaches tr s)
    (hb : s.Between) : (∀ c < s.accepted, s.Accounted c) ↔ .assign (.add false) ∉ tr := by
  have ho := Owned.of_reaches h
  have hcl := ClosedOnce.of_reaches h
  rcases custody_of_reaches h with ⟨hno, hk⟩ | ⟨hmem, fd, ⟨c, hfd⟩, hk⟩
  · exact ⟨fun _ => hno, fun _ c hc => accounted_of_complete ho hcl hb hk hc⟩
  · obtain ⟨c, hlt, hc⟩ := not_accounted ho hcl hfd fun w => hk (some w)
    constructor
    · intro hall
      exact (hc (hall c hlt)).elim
    · intro hno
      exact (hno hmem).elim

/-- A step that leaves connection `c` as it was. -/
structure SameConn (s t : Server n) (c : Conn) : Prop where
  files : ∀ fd, t.files fd = some c ↔ s.files fd = some c
  entry : ∀ w fd r, r.conn = c → ((t.workers w).Entry fd r ↔ (s.workers w).Entry fd r)
  closes : t.closes c = s.closes c

theorem SameConn.setWorker {w : Fin n} {x : Worker} {c : Conn}
    (hx : ∀ fd r, r.conn = c → (x.Entry fd r ↔ (s.workers w).Entry fd r)) :
    SameConn s (s.setWorker w x) c where
  files _ := Iff.rfl
  entry w' fd r hr := by
    by_cases hw : w' = w
    · subst hw; simpa using hx fd r hr
    · simp [hw]
  closes := rfl

theorem Owned.entry_remove (h : Owned s) {w : Fin n} {fd fd' : Fd} {c c' : Conn}
    (hc : s.files fd = some c) (hne : c' ≠ c) {r : Registration} (hr : r.conn = c') :
    ((s.workers w).remove fd).Entry fd' r ↔ (s.workers w).Entry fd' r := by
  constructor
  · rintro ⟨hmem, hi⟩
    exact ⟨Finset.mem_of_mem_erase hmem, hi⟩
  · rintro ⟨hmem, hi⟩
    refine ⟨Finset.mem_erase.mpr ⟨?_, hmem⟩, hi⟩
    rintro rfl
    have hopen := (h.worker w).registered_open fd' hmem
    rw [hc, hi, hr, Option.some.injEq] at hopen
    exact hne hopen.symm

theorem handle_sameConn (h : Owned s) {w : Fin n} {act : HandlerAct} {ev : Event} {stage : Stage}
    {rest : List Event} (hpc : (s.workers w).pc = .event ev stage rest)
    (ht : Transition maxclients s (.handle w act) t) {c : Conn} (hc : c ≠ ev.conn) :
    SameConn s t c := by
  cases ht with
  | quiet => exact .setWorker fun _ _ _ => Iff.rfl
  | @modOk w ev' stage' rest' p hpc' hp hreg =>
    obtain ⟨rfl, rfl, rfl⟩ := WorkerPc.event.inj (hpc.symm.trans hpc')
    obtain ⟨hst, -⟩ := stillRegistered_advance (Or.inr rfl) hp
    have hconn : ((s.workers w).interest ev.fd).conn = ev.conn :=
      ((h.worker w).current hpc hst).2
    apply SameConn.setWorker
    intro fd r hr
    apply and_congr_right
    intro _
    by_cases he : fd = ev.fd
    · subst he
      constructor <;> rintro rfl
      · simp [Worker.resume, Worker.changeMask, hconn, hc.symm] at hr
      · exact (hc (hr.symm.trans hconn)).elim
    · simp [Worker.resume, Worker.changeMask, he]
  | @delOk w ev' rest' hpc' hreg =>
    obtain ⟨rfl, rfl, rfl⟩ := WorkerPc.event.inj (hpc.symm.trans hpc')
    exact .setWorker fun fd r hr => h.entry_remove (h.event hpc (by simp)).1 hc hr
  | delFail => exact .setWorker fun _ _ _ => Iff.rfl
  | @close w ev' deleted rest' hpc' =>
    obtain ⟨rfl, rfl, rfl⟩ := WorkerPc.event.inj (hpc.symm.trans hpc')
    have hfd := (h.event hpc (by simp)).1
    rw [closeFd_eq hfd]
    refine ⟨fun fd => ?_, fun w' fd r hr => ?_, Function.update_of_ne hc _ _⟩
    · by_cases he : fd = ev.fd
      · subst he; simp [hfd, hc.symm]
      · simp [he]
    · have hentry : ((s.workers w').remove ev.fd).Entry fd r ↔ (s.workers w').Entry fd r :=
        h.entry_remove hfd hc hr
      by_cases hw : w' = w
      · subst hw
        simp only [setWorker_workers, Function.update_self]
        exact hentry
      · simpa [hw] using hentry
  | dec => exact .setWorker fun _ _ _ => Iff.rfl

theorem handle_activeConns {w w' : Fin n} {act : HandlerAct} {ev : Event} {stage : Stage}
    {rest : List Event} (hpc : (s.workers w).pc = .event ev stage rest)
    (ht : Transition maxclients s (.handle w act) t) (hw : w' ≠ w ∨ stage ≠ .dec) :
    (t.workers w').activeConns = (s.workers w').activeConns := by
  have hset : ∀ {x : Worker}, x.activeConns = (s.workers w).activeConns →
      ((s.setWorker w x).workers w').activeConns = (s.workers w').activeConns := by
    intro x hx
    by_cases he : w' = w
    · subst he; simpa using hx
    · simp [he]
  cases ht with
  | quiet | modOk | delOk | delFail => exact hset rfl
  | @close w ev' deleted rest' hpc' =>
    by_cases he : w' = w
    · subst he; simp
    · simp [he]
  | @dec w ev' rest' hpc' =>
    obtain ⟨rfl, rfl, rfl⟩ := WorkerPc.event.inj (hpc.symm.trans hpc')
    rcases hw with hw | hw
    · simp [hw]
    · exact (hw rfl).elim

/-- No stale event: up to its `close` a handler works on the connection the event was
reported for, no step of it touches another, and the decrement takes back no connection
that is still registered. -/
theorem no_stale_event {tr : List (Action n)} (h : (serverMachine n maxclients).Reaches tr s)
    {w : Fin n} {ev : Event} {stage : Stage} {rest : List Event}
    (hpc : (s.workers w).pc = .event ev stage rest) :
    (stage ≠ .dec → s.files ev.fd = some ev.conn) ∧
    (stage = .dec → (s.workers w).activeConns =
      (s.workers w).registered.card - s.pendingIncrement w + 1) ∧
    ∀ {act : HandlerAct} {t : Server n}, s.step maxclients (.handle w act) = some t →
      (∀ c, c ≠ ev.conn → SameConn s t c) ∧
      ∀ w', w' ≠ w ∨ stage ≠ .dec → (t.workers w').activeConns = (s.workers w').activeConns := by
  have ho := Owned.of_reaches h
  refine ⟨?_, ?_, ?_⟩
  · intro hst
    exact (ho.event hpc hst).1
  · rintro rfl
    have hb := Balanced.of_reaches h w
    have hd : (s.workers w).pendingDecrement = 1 := by
      simp [Worker.pendingDecrement, hpc, WorkerPc.removed]
    unfold Worker.excess at hb
    omega
  · intro act t hstep
    have ht := step_cases hstep
    constructor
    · intro c hc
      exact handle_sameConn ho hpc ht hc
    · intro w' hw'
      exact handle_activeConns hpc ht hw'

theorem no_stale_event_hangUp :
    ∃ s : Server 2, (serverMachine 2 10).Reaches (connect 7 ++ hangUp 7) s ∧
      (s.workers 1).pc = .event ⟨7, EPOLLERR, 0⟩ (.close true) [] ∧ s.files 7 = some 0 := by
  have h := Machine.Reaches.of_isSome (M := serverMachine 2 10) (start_initial (n := 2))
    (connect 7 ++ hangUp 7) (by decide)
  have hpc : ((((serverMachine 2 10).exec (initial 2) (connect 7 ++ hangUp 7)).get
      (by decide)).workers 1).pc = .event ⟨7, EPOLLERR, 0⟩ (.close true) [] := by decide
  exact ⟨_, h, hpc, (no_stale_event h hpc).1 (by simp)⟩

end Server

namespace LoggedServer

open CallingAct

variable {n : ℕ} {maxclients verbosity : ℤ} {S : LoggedServer n}
  {tr : List (CallingAct (Action n) (Thread n) LogCall)}

/-- `connect` with its message, up to the choice of the worker. -/
def accepting (fd : Fd) : List (CallingAct (Action 2) (Thread 2) LogCall) :=
  [.step .listenerTest [], .step (.accept fd) [.newClient], .call .listener] ++
    silently Server.scan

def loggedConnect (fd : Fd) : List (CallingAct (Action 2) (Thread 2) LogCall) :=
  accepting fd ++ silently [.assign (.add true), .assign .increment]

/-- The listener is not inside `AssignTask`; the socket may still be in `Listen`. -/
def Between (S : LoggedServer n) : Prop := S.state.Between ∨ S.HandingOver

theorem HandingOver.not_accounted (hs : S.HandingOver)
    (h : (loggedMachine n maxclients verbosity).Reaches tr S) :
    ∃ c < S.state.accepted, ¬S.state.Accounted c := by
  obtain ⟨fd, hl⟩ := hs.assigning h
  have hheld : S.state.listener.Holds fd := by
    rw [hl]
    exact (ListenerPc.holds_choosing AssignPc.choosing_loopHead).mpr rfl
  obtain ⟨⟨c, hfd⟩, hno⟩ := (Server.Owned.of_reaches h.state).listener hheld
  exact Server.not_accounted (.of_reaches h.state) (.of_reaches h.state) hfd hno

theorem HandingOver.run (hs : S.HandingOver) (hheld : S.held = true) {T : LoggedServer n}
    {tr : List (CallingAct (Action n) (Thread n) LogCall)}
    (hrun : (loggedMachine n maxclients verbosity).Run S tr T) : T.HandingOver :=
  have hstuck : S.Stuck .listener := ⟨hheld, List.ne_nil_of_mem hs⟩
  (hstuck.run hrun).2.subset hs

/-- No accepted socket is lost exactly as long as no registration has failed and none is in
`Listen` between `accept` and its last message. There it stays for good with the mutex lost,
and is on its way to `AssignTask` otherwise. -/
theorem accounted_iff (h : (loggedMachine n maxclients verbosity).Reaches tr S)
    (hb : S.Between) :
    ((∀ c < S.state.accepted, S.state.Accounted c) ↔
      .assign (.add false) ∉ actions tr ∧ ¬S.HandingOver) ∧
    (S.HandingOver →
      (S.held = true → ∀ {tr' T}, (loggedMachine n maxclients verbosity).Run S tr' T →
        T.HandingOver) ∧
      (S.held = false → ∃ T, (loggedMachine n maxclients verbosity).step S (.call .listener) =
        some T)) := by
  constructor
  · by_cases hs : S.HandingOver
    · obtain ⟨c, hlt, hc⟩ := hs.not_accounted h
      exact ⟨fun hall => (hc (hall c hlt)).elim, fun hand => (hand.2 hs).elim⟩
    · rw [Server.accounted_iff_add h.state (hb.resolve_right hs)]
      exact ⟨fun hno => ⟨hno, hs⟩, fun hand => hand.1⟩
  · intro hs
    refine ⟨fun hheld _ _ hrun => hs.run hheld hrun, fun hheld => ?_⟩
    exact exists_call (fun hstuck => by simp [hstuck.1] at hheld) (List.ne_nil_of_mem hs)

theorem accounted_iff_connect :
    ∃ S : LoggedServer 2, (loggedMachine 2 10 MY_DEBUG).Reaches (loggedConnect 7) S ∧
      S.state.accepted = 1 ∧ ∀ c < S.state.accepted, S.state.Accounted c := by
  have h := Machine.Reaches.of_isSome (M := loggedMachine 2 10 MY_DEBUG) (start_initial (n := 2))
    (loggedConnect 7) (by decide)
  exact ⟨_, h, rfl, (accounted_iff h (Or.inl nofun)).1.mpr ⟨by decide, by decide⟩⟩

/-- The first `epoll_ctl` of a pool of two fails: connection 0 stays open and nobody has it. At
`loglevel notice` the message about client 7 takes the mutex along, and client 8 is in
`Listen` for ever. -/
theorem not_accounted_lost :
    (∃ (tr : List (CallingAct (Action 2) (Thread 2) LogCall)) (S : LoggedServer 2),
      (loggedMachine 2 10 MY_DEBUG).Reaches tr S ∧ S.Between ∧ ¬S.HandingOver ∧
        ∃ c < S.state.accepted, ¬S.state.Accounted c) ∧
    ∃ S : LoggedServer 2, (loggedMachine 2 10 MY_NOTICE).Reaches
        (loggedConnect 7 ++ [.step .listenerTest [], .step (.accept 8) [.newClient]]) S ∧
      S.Between ∧ (∃ c < S.state.accepted, ¬S.state.Accounted c) ∧
      ∀ {tr T}, (loggedMachine 2 10 MY_NOTICE).Run S tr T → T.HandingOver := by
  constructor
  · have h := Machine.Reaches.of_isSome (M := loggedMachine 2 10 MY_DEBUG)
      (start_initial (n := 2)) (accepting 7 ++ [.step (.assign (.add false)) [.addErr]])
      (by decide)
    refine ⟨_, _, h, Or.inl nofun, by decide, ?_⟩
    by_contra! hall
    exact (Server.accounted_iff_add h.state nofun).mp hall (by decide)
  · have h := Machine.Reaches.of_isSome (M := loggedMachine 2 10 MY_NOTICE)
      (start_initial (n := 2))
      (loggedConnect 7 ++ [.step .listenerTest [], .step (.accept 8) [.newClient]]) (by decide)
    have hs : HandingOver (((loggedMachine 2 10 MY_NOTICE).exec (initial 2)
        (loggedConnect 7 ++ [.step .listenerTest [], .step (.accept 8) [.newClient]])).get
          (by decide)) := by decide
    exact ⟨_, h, Or.inr hs, hs.not_accounted h, fun hrun => hs.run (by decide) hrun⟩

end LoggedServer
end EpollThreads.Dispatch
