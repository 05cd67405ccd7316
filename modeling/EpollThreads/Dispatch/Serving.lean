import EpollThreads.Dispatch.Ownership

/-!
# Which worker a connection belongs to

`AssignTask` gives a connection to one worker, once. From then on no other
worker comes to have anything to do with it, whatever number its descriptor had
before or is given to later.
-/

namespace EpollThreads.Dispatch

open Foundations Events

namespace Worker

/-- The mask under which the worker has the descriptor registered for the connection. -/
def mask (x : Worker) (fd : Fd) (c : Conn) : Option (BitVec 32) :=
  if fd ∈ x.registered ∧ (x.interest fd).conn = c then some (x.interest fd).events else none

/-- The worker has nothing to do with the connection. -/
def Without (x : Worker) (c : Conn) : Prop :=
  (∀ fd ∈ x.registered, (x.interest fd).conn ≠ c) ∧ ∀ ev ∈ x.pc.batch, ev.conn ≠ c

variable {x y : Worker} {fd fd' : Fd} {c c' : Conn} {m : BitVec 32}

theorem mask_of_mem (h : fd ∈ x.registered) :
    x.mask fd (x.interest fd).conn = some (x.interest fd).events :=
  if_pos ⟨h, rfl⟩

theorem mask_congr (hr : y.registered = x.registered) (hi : y.interest = x.interest) :
    y.mask fd c = x.mask fd c := by
  simp [mask, hr, hi]

theorem mask_insert_self : (x.insert fd ⟨c, m⟩).mask fd c = some m := by
  simp [mask, insert]

theorem mask_remove_self : (x.remove fd).mask fd c = none := by
  simp [mask, remove]

theorem mask_remove_ne (h : fd ≠ fd') : (x.remove fd').mask fd c = x.mask fd c := by
  simp [mask, remove, h]

theorem mask_changeMask_ne (h : fd ≠ fd') : (x.changeMask fd' m).mask fd c = x.mask fd c := by
  simp [mask, changeMask, h]

theorem mask_changeMask_self (h : fd ∈ x.registered) (hc : (x.interest fd).conn = c) :
    (x.changeMask fd m).mask fd c = some m := by
  simp [mask, changeMask, h, hc]

theorem mask_eq_none {files : Fd → Option Conn} (h : WorkerOwned files x)
    (hc : files fd ≠ some c) : x.mask fd c = none := by
  refine if_neg ?_
  rintro ⟨hmem, rfl⟩
  exact hc (h.registered_open fd hmem)

theorem Without.mask (h : x.Without c) (fd : Fd) : x.mask fd c = none :=
  if_neg fun hm => h.1 fd hm.1 hm.2

theorem Without.mono (h : x.Without c)
    (hr : ∀ fd ∈ y.registered, fd ∈ x.registered ∧ (y.interest fd).conn = (x.interest fd).conn)
    (hb : ∀ ev ∈ y.pc.batch, ev.conn = c → ev ∈ x.pc.batch) : y.Without c := by
  refine ⟨fun fd hfd => ?_, fun ev hev hc => h.2 ev (hb ev hev hc) hc⟩
  rw [(hr fd hfd).2]
  exact h.1 fd (hr fd hfd).1

theorem batch_resume {ev : Event} {rest : List Event} {p : Pass} :
    ∀ e ∈ (x.resume ev rest p).pc.batch, e ∈ ev :: rest := by
  unfold resume
  cases p.stage with
  | none =>
    exact fun e he => List.mem_cons_of_mem _ ((WorkerPc.dispatch_spec _ _).1.subset he)
  | some stage => exact fun e he => he

end Worker

/-- The events of a batch are of different connections. -/
theorem WorkerOwned.nodup_conn {files : Fd → Option Conn} {x : Worker} (h : WorkerOwned files x)
    (hinj : ∀ fd fd' c, files fd = some c → files fd' = some c → fd = fd') {events : List Event}
    (hnd : (events.map Event.fd).Nodup)
    (hreg : ∀ ev ∈ events, ev.fd ∈ x.registered ∧ (x.interest ev.fd).conn = ev.conn) :
    (events.map Event.conn).Nodup := by
  have hfile (ev : Event) (hev : ev ∈ events) : files ev.fd = some ev.conn := by
    rw [h.registered_open ev.fd (hreg ev hev).1, (hreg ev hev).2]
  have hpair : events.Pairwise fun e e' => e.fd ≠ e'.fd := List.pairwise_map.mp hnd
  refine List.pairwise_map.mpr (hpair.imp_of_mem fun {e e'} he he' hne hc => hne ?_)
  exact hinj e.fd e'.fd e.conn (hfile e he) (hc ▸ hfile e' he')

/-- What a call of a handler does to the mask. -/
def maskAfter (stage : Stage) (m : Option (BitVec 32)) : HandlerAct → Option (BitVec 32)
  | .mod true => some (changeModeEvents stage.newMode .edgeTriggered)
  | .del true | .close => none
  | _ => m

/-- The worker whose thread takes the step. -/
def Action.serves {n : ℕ} : Action n → Option (Fin n)
  | .wait w _ | .handle w _ => some w
  | _ => none

namespace Server

variable {n : ℕ} {maxclients : ℤ} {s t u : Server n} {a : Action n} {c : Conn} {fd fd' : Fd}
  {w : Fin n}

theorem files_of_lt (ht : Transition maxclients s a t) (hc : c < s.accepted)
    (h : t.files fd = some c) : s.files fd = some c := by
  rcases Owned.files_step ht with ⟨hf, -⟩ | ⟨fd', -, hf, -⟩ | ⟨fd', c', -, hf, -⟩ <;> rw [hf] at h
  · exact h
  · rcases Owned.update_eq_some h with ⟨-, rfl⟩ | ⟨-, h⟩
    · exact absurd hc (lt_irrefl _)
    · exact h
  · exact (Owned.update_none_eq_some h).2

/-- The listener comes by a descriptor through `accept` only. -/
theorem listener_holds (ht : Transition maxclients s a t) (h : t.listener.Holds fd) :
    s.listener.Holds fd ∨ s.files fd = none := by
  cases ht with
  | listenerTest =>
    dsimp only at h
    split at h <;> exact h.elim
  | listenFails | refuse | addOk | addFail | increment => exact h.elim
  | @accept fd' hl hfd =>
    obtain rfl : fd' = fd := (ListenerPc.holds_choosing AssignPc.choosing_loopHead).mp h
    exact Or.inr hfd
  | read hl _ hpc =>
    obtain ⟨hc, hc'⟩ := AssignPc.choosing_afterRead hpc
    rw [ListenerPc.holds_choosing hc'] at h
    exact Or.inl (by rwa [hl, ListenerPc.holds_choosing hc])
  | close => exact Or.inl (by simpa using h)
  | shutdown | workerTest | wait | quiet | modOk | delOk | delFail | dec => exact Or.inl h

theorem mask_closeFd (ho : Owned s) {fd' : Fd} (h : s.files fd' ≠ some c) (w : Fin n) :
    ((s.closeFd fd').workers w).mask fd c = (s.workers w).mask fd c := by
  unfold closeFd
  split
  · rfl
  · by_cases he : fd = fd'
    · subst he
      rw [Worker.mask_remove_self, Worker.mask_eq_none (ho.worker w) h]
    · exact Worker.mask_remove_ne he

theorem without_closeFd {fd' : Fd} {w : Fin n} (h : (s.workers w).Without c) :
    ((s.closeFd fd').workers w).Without c := by
  unfold closeFd
  split
  · exact h
  · exact h.mono (fun fd hfd => ⟨Finset.mem_of_mem_erase hfd, rfl⟩) fun _ hev _ => hev

/-- A worker that has nothing to do with a connection gets it from `AssignTask` only. -/
theorem without_step (ht : Transition maxclients s a t)
    (hadd : a = .assign (.add true) → ∀ sockfd w, s.listener = .assigning sockfd (.add w) →
      s.files sockfd ≠ some c) {w : Fin n} (h : (s.workers w).Without c) :
    (t.workers w).Without c := by
  cases ht with
  | shutdown | listenerTest | listenFails | accept | read | addFail => exact h
  | refuse => exact without_closeFd h
  | @addOk sockfd w' c' hl hc he hr =>
    refine worker_setWorker (P := fun x => x.Without c) (fun hw => ?_) h
    have hne : c' ≠ c := fun heq => hadd rfl sockfd w' hl (heq ▸ hc)
    refine ⟨fun fd hfd => ?_, hw.2⟩
    rcases Finset.mem_insert.mp hfd with rfl | hfd
    · simpa [Worker.insert] using hne
    · have hne' : fd ≠ sockfd := fun heq => hr (heq ▸ hfd)
      simpa [Worker.insert, hne'] using hw.1 fd hfd
  | increment =>
    exact worker_setWorker (P := fun x => x.Without c)
      (fun hw => hw.mono (fun _ hfd => ⟨hfd, rfl⟩) fun _ hev _ => hev) h
  | @workerTest w' hpc =>
    refine worker_setWorker (P := fun x => x.Without c)
      (fun hw => hw.mono (fun _ hfd => ⟨hfd, rfl⟩) fun ev hev _ => ?_) h
    dsimp only at hev
    split at hev <;> simp [WorkerPc.batch] at hev
  | @wait w' batch hpc hnd hreg =>
    refine worker_setWorker (P := fun x => x.Without c)
      (fun hw => ⟨hw.1, fun ev hev => ?_⟩) h
    obtain ⟨p, hp, rfl⟩ := List.mem_map.mp ((WorkerPc.dispatch_spec _ _).1.subset hev)
    exact hw.1 p.1 (hreg p hp)
  | @quiet w' act ev stage rest p hpc hq hp =>
    refine worker_setWorker (P := fun x => x.Without c)
      (fun hw => hw.mono (fun _ hfd => ⟨hfd, rfl⟩) fun e he _ => ?_) h
    rw [hpc]
    exact Worker.batch_resume e he
  | @modOk w' ev stage rest p hpc hp hreg =>
    refine worker_setWorker (P := fun x => x.Without c)
      (fun hw => hw.mono (fun fd hfd => ⟨hfd, ?_⟩) fun e he _ => ?_) h
    · by_cases hne : fd = ev.fd
      · subst hne
        simp [Worker.resume, Worker.changeMask]
      · simp [Worker.resume, Worker.changeMask, hne]
    · rw [hpc]
      exact Worker.batch_resume e he
  | @delOk w' ev rest hpc hreg =>
    exact worker_setWorker (P := fun x => x.Without c)
      (fun hw => hw.mono (fun _ hfd => ⟨Finset.mem_of_mem_erase hfd, rfl⟩)
        fun e he _ => by rwa [hpc]) h
  | @delFail w' ev rest hpc =>
    exact worker_setWorker (P := fun x => x.Without c)
      (fun hw => hw.mono (fun _ hfd => ⟨hfd, rfl⟩) fun e he _ => by rwa [hpc]) h
  | @close w' ev deleted rest hpc =>
    have hclosed : ((s.closeFd ev.fd).workers w).Without c := without_closeFd h
    refine worker_setWorker (P := fun x => x.Without c)
      (fun hw => hw.mono (fun _ hfd => ⟨hfd, rfl⟩) fun e he _ => ?_) hclosed
    rwa [closeFd_pc, hpc]
  | @dec w' ev rest hpc =>
    refine worker_setWorker (P := fun x => x.Without c)
      (fun hw => hw.mono (fun _ hfd => ⟨hfd, rfl⟩) fun e he _ => ?_) h
    rw [hpc]
    exact List.mem_cons_of_mem _ ((WorkerPc.dispatch_spec _ _).1.subset he)

/-- The descriptor of an event in progress stands for its connection until it is closed. -/
theorem Owned.file_of_event (ho : Owned s) {ev : Event} {stage : Stage} {rest : List Event}
    (hpc : (s.workers w).pc = .event ev stage rest) (hdec : stage ≠ .dec) :
    s.files ev.fd = some ev.conn := by
  have hopen (hst : StillRegistered stage) : s.files ev.fd = some ev.conn := by
    obtain ⟨hreg, hconn⟩ := (ho.worker w).current hpc hst
    rw [(ho.worker w).registered_open ev.fd hreg, hconn]
  cases stage with
  | close deleted => exact (ho.closing hpc).2.1
  | dec => exact absurd rfl hdec
  | _ => exact hopen trivial

theorem mask_handleEffect_self (ho : Owned s) {stage : Stage} {act : HandlerAct}
    (h : s.handleEffect w fd stage act = some u) (hf : s.files fd = some c) :
    (u.workers w).mask fd c =
      maskAfter stage ((s.workers w).mask fd c) act := by
  match act with
  | .mod true =>
    simp only [handleEffect, Option.ite_none_right_eq_some, Option.some.injEq] at h
    obtain ⟨hreg, rfl⟩ := h
    have hconn : ((s.workers w).interest fd).conn = c :=
      Option.some.inj (((ho.worker w).registered_open fd hreg).symm.trans hf)
    simpa [maskAfter] using Worker.mask_changeMask_self hreg hconn
  | .del true =>
    simp only [handleEffect, Option.ite_none_right_eq_some, Option.some.injEq] at h
    obtain ⟨-, rfl⟩ := h
    simpa [maskAfter] using Worker.mask_remove_self
  | .close =>
    rw [← Option.some.inj h, closeFd_eq hf]
    exact Worker.mask_remove_self
  | .dec =>
    rw [← Option.some.inj h, setWorker_workers, Function.update_self]
    exact Worker.mask_congr rfl rfl
  | .recv .. | .format _ | .send .. | .mod false | .del false | .error =>
    rw [← Option.some.inj h]
    rfl

/-- A call for one connection leaves the masks of the others alone. -/
theorem mask_handleEffect_ne (ho : Owned s) {stage : Stage} {act : HandlerAct}
    (h : s.handleEffect w fd' stage act = some u) (hf : s.files fd' ≠ some c) :
    (u.workers w).mask fd c = (s.workers w).mask fd c := by
  match act with
  | .mod true =>
    simp only [handleEffect, Option.ite_none_right_eq_some, Option.some.injEq] at h
    obtain ⟨hreg, rfl⟩ := h
    rw [setWorker_workers, Function.update_self]
    by_cases he : fd = fd'
    · subst he
      rw [Worker.mask_eq_none ((ho.worker w).changeMask _ _) hf,
        Worker.mask_eq_none (ho.worker w) hf]
    · exact Worker.mask_changeMask_ne he
  | .del true =>
    simp only [handleEffect, Option.ite_none_right_eq_some, Option.some.injEq] at h
    obtain ⟨-, rfl⟩ := h
    rw [setWorker_workers, Function.update_self]
    by_cases he : fd = fd'
    · subst he
      rw [Worker.mask_remove_self, Worker.mask_eq_none (ho.worker w) hf]
    · exact Worker.mask_remove_ne he
  | .close =>
    rw [← Option.some.inj h]
    exact mask_closeFd ho hf w
  | .dec =>
    rw [← Option.some.inj h, setWorker_workers, Function.update_self]
    exact Worker.mask_congr rfl rfl
  | .recv .. | .format _ | .send .. | .mod false | .del false | .error =>
    rw [← Option.some.inj h]

theorem mask_insert_ne {m : BitVec 32} {c' : Conn} (hne : c' ≠ c)
    (hr : fd' ∉ (s.workers w).registered) :
    ((s.workers w).insert fd' ⟨c', m⟩).mask fd c = (s.workers w).mask fd c := by
  by_cases he : fd = fd'
  · subst he
    simp [Worker.mask, Worker.insert, hne, hr]
  · simp [Worker.mask, Worker.insert, he]

theorem handleStep_eq_some {act : HandlerAct} (h : s.handleStep w act = some t) :
    ∃ ev stage rest p u, (s.workers w).pc = .event ev stage rest ∧
      stage.advance .taskThread ev.fd ev.events (s.workers w).nRet act = some p ∧
      s.handleEffect w ev.fd stage act = some u ∧
      t = u.setWorker w ((u.workers w).resume ev rest p) := by
  unfold handleStep at h
  split at h
  · rename_i ev stage rest hpc
    obtain ⟨p, hp, h⟩ := Option.bind_eq_some_iff.mp h
    obtain ⟨u, hu, rfl⟩ := Option.map_eq_some_iff.mp h
    exact ⟨ev, stage, rest, p, u, hpc, hp, hu, rfl⟩
  · cases h

/-- Nothing is ever registered with a worker whose `epoll_create` failed. -/
def Opened (s : Server n) : Prop := ∀ w, (s.workers w).epfd = -1 → (s.workers w).registered = ∅

theorem Opened.step (h : Opened s) (ht : Transition maxclients s a t) : Opened t := by
  let P (x : Worker) : Prop := x.epfd = -1 → x.registered = ∅
  have hremove {x : Worker} (fd : Fd) (hx : P x) : P (x.remove fd) := by
    intro he
    simp [Worker.remove, hx he]
  have hclose (fd : Fd) (w : Fin n) : P ((s.closeFd fd).workers w) :=
    forall_closeFd (P := P) h (fun _ hx => hremove fd hx) w
  cases ht with
  | shutdown | listenerTest | listenFails | accept | read | addFail => exact h
  | refuse => exact hclose _
  | addOk hl hc he => exact forall_setWorker (P := P) h fun hfail => (he hfail).elim
  | @modOk w | @increment _ w | @workerTest w | @wait w | @quiet w | @delFail w | @dec w =>
    exact forall_setWorker (P := P) h (h w)
  | @delOk w ev => exact forall_setWorker (P := P) h (hremove ev.fd (h w))
  | @close w ev => exact forall_setWorker (P := P) (hclose ev.fd) (hclose ev.fd w)

theorem Opened.of_reaches {tr : List (Action n)} (h : (serverMachine n maxclients).Reaches tr s) :
    Opened s :=
  h.invariant (fun hs w _ => (hs.worker w).2.1) fun hs hstep => hs.step (step_cases hstep)

end Server
end EpollThreads.Dispatch
