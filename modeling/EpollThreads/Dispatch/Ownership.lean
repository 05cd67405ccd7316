import EpollThreads.Dispatch.Transition
import EpollThreads.Foundations.Custody

/-!
# Who owns a descriptor

Every open connection descriptor the server can still reach has one owner: the
listener until it has added or closed it, the worker whose interest list it is
in, or the worker between the deletion and the `close` of `iClose`. Events of a
batch name distinct descriptors that their worker still has registered.
-/

namespace EpollThreads.Dispatch

open Foundations Events

namespace WorkerPc

/-- The event being handled and those behind it in the batch. -/
def batch : WorkerPc → List Event
  | .event ev _ rest => ev :: rest
  | _ => []

/-- Events whose descriptor must still be registered. -/
def pending : WorkerPc → List Event
  | .event _ (.close _) rest => rest
  | .event _ .dec rest => rest
  | .event ev _ rest => ev :: rest
  | _ => []

/-- The event whose descriptor `iClose` is about to close, and whether the
deletion before it succeeded. -/
def closing : WorkerPc → Option (Event × Bool)
  | .event ev (.close deleted) _ => some (ev, deleted)
  | _ => none

theorem pending_event {ev : Event} {stage : Stage} {rest : List Event}
    (h : StillRegistered stage) : (WorkerPc.event ev stage rest).pending = ev :: rest := by
  cases stage <;> first | rfl | exact h.elim

theorem closing_event {ev : Event} {stage : Stage} {rest : List Event}
    (h : StillRegistered stage) : (WorkerPc.event ev stage rest).closing = none := by
  cases stage <;> first | rfl | exact h.elim

/-- Moving on in a batch: past its end, or at the next event with something to do. -/
theorem dispatch_cases (nRet : ℤ) (events : List Event) :
    dispatch nRet events = .test ∨ ∃ ev stage rest, dispatch nRet events = .event ev stage rest ∧
      ev :: rest <:+ events ∧ beginEvent ev.events nRet = some stage := by
  induction events with
  | nil => exact Or.inl rfl
  | cons ev rest ih =>
    cases hb : beginEvent ev.events nRet with
    | none =>
      simp only [dispatch, hb]
      apply ih.imp_right
      rintro ⟨ev', stage, rest', hd, hs, hb'⟩
      exact ⟨ev', stage, rest', hd, hs.trans (List.suffix_cons ev rest), hb'⟩
    | some stage =>
      simp only [dispatch, hb]
      exact Or.inr ⟨ev, stage, rest, rfl, List.suffix_rfl, hb⟩

/-- What is kept of the batch is a tail of it, all still registered. -/
theorem dispatch_spec (nRet : ℤ) (events : List Event) :
    (dispatch nRet events).batch <:+ events ∧
      (dispatch nRet events).pending = (dispatch nRet events).batch ∧
      (dispatch nRet events).closing = none := by
  rcases dispatch_cases nRet events with hd | ⟨ev, stage, rest, hd, hs, hb⟩ <;> rw [hd]
  · exact ⟨List.nil_suffix, rfl, rfl⟩
  · have hst := stillRegistered_beginEvent stage hb
    exact ⟨hs, pending_event hst, closing_event hst⟩

end WorkerPc

/-- The descriptors a worker owns. -/
def Worker.Holds (x : Worker) (fd : Fd) : Prop :=
  fd ∈ x.registered ∨ ∃ ev deleted, x.pc.closing = some (ev, deleted) ∧ ev.fd = fd

namespace Worker

variable {x : Worker} {fd : Fd}

theorem holds_iff (h : x.pc.closing = none) : x.Holds fd ↔ fd ∈ x.registered := by
  simp [Holds, h]

theorem holds_congr {y : Worker} (hr : y.registered = x.registered) (hy : y.pc.closing = none)
    (hx : x.pc.closing = none) : y.Holds fd ↔ x.Holds fd := by
  rw [holds_iff hy, holds_iff hx, hr]

theorem closing_resume {ev : Event} {rest : List Event} {p : Pass}
    (hp : ∀ stage ∈ p.stage, StillRegistered stage) : (x.resume ev rest p).pc.closing = none := by
  unfold resume
  cases hs : p.stage with
  | none => exact (WorkerPc.dispatch_spec _ _).2.2
  | some stage => exact WorkerPc.closing_event (hp stage hs)

theorem holds_delOk {ev : Event} {rest : List Event} (hpc : x.pc = .event ev .del rest)
    (hreg : ev.fd ∈ x.registered) :
    { x.remove ev.fd with pc := .event ev (.close true) rest : Worker }.Holds fd ↔ x.Holds fd := by
  rw [holds_iff (x := x) (by rw [hpc]; rfl)]
  by_cases he : fd = ev.fd <;> simp [Holds, WorkerPc.closing, remove, he, hreg, eq_comm]

theorem holds_delFail {ev : Event} {rest : List Event} (hpc : x.pc = .event ev .del rest)
    (hreg : ev.fd ∈ x.registered) :
    { x with pc := .event ev (.close false) rest : Worker }.Holds fd ↔ x.Holds fd := by
  rw [holds_iff (x := x) (by rw [hpc]; rfl)]
  by_cases he : fd = ev.fd <;> simp [Holds, WorkerPc.closing, he, hreg, eq_comm]

theorem holds_close {ev : Event} {deleted : Bool} {rest : List Event}
    (hpc : x.pc = .event ev (.close deleted) rest) :
    { x.remove ev.fd with pc := .event ev .dec rest : Worker }.Holds fd ↔
      x.Holds fd ∧ fd ≠ ev.fd := by
  rw [holds_iff rfl]
  by_cases he : fd = ev.fd <;> simp [Holds, hpc, WorkerPc.closing, remove, he, eq_comm]

theorem holds_insert {fd' : Fd} {r : Registration} :
    (x.insert fd' r).Holds fd ↔ x.Holds fd ∨ fd = fd' := by
  simp only [Holds, insert, Finset.mem_insert]
  constructor
  · rintro ((h | h) | h)
    · exact Or.inr h
    · exact Or.inl (Or.inl h)
    · exact Or.inl (Or.inr h)
  · rintro ((h | h) | h)
    · exact Or.inl (Or.inr h)
    · exact Or.inr h
    · exact Or.inl (Or.inl h)

theorem holds_ne {fd' : Fd} (h : ¬x.Holds fd') : x.Holds fd ↔ x.Holds fd ∧ fd ≠ fd' := by
  constructor
  · intro hf
    refine ⟨hf, ?_⟩
    rintro rfl
    exact h hf
  · exact And.left

theorem remove_eq {fd' : Fd} (h : ¬x.Holds fd') : x.remove fd' = x := by
  have hmem : fd' ∉ x.registered := fun hm => h (Or.inl hm)
  simp [remove, Finset.erase_eq_of_notMem hmem]

end Worker

/-- What holds of one worker against the descriptor table. -/
structure WorkerOwned (files : Fd → Option Conn) (x : Worker) : Prop where
  registered_open : ∀ fd ∈ x.registered, files fd = some (x.interest fd).conn
  nodup : (x.pc.batch.map Event.fd).Nodup
  pending : ∀ ev ∈ x.pc.pending, ev.fd ∈ x.registered ∧ (x.interest ev.fd).conn = ev.conn
  closing : ∀ ev deleted, x.pc.closing = some (ev, deleted) →
    files ev.fd = some ev.conn ∧ (ev.fd ∈ x.registered ↔ deleted = false)

namespace WorkerOwned

variable {files : Fd → Option Conn} {x : Worker}

theorem current (h : WorkerOwned files x) {ev : Event} {stage : Stage} {rest : List Event}
    (hpc : x.pc = .event ev stage rest) (hst : StillRegistered stage) :
    ev.fd ∈ x.registered ∧ (x.interest ev.fd).conn = ev.conn := by
  apply h.pending
  rw [hpc, WorkerPc.pending_event hst]
  exact List.mem_cons_self

theorem behind (h : WorkerOwned files x) {ev e : Event} {stage : Stage} {rest : List Event}
    (hpc : x.pc = .event ev stage rest) (he : e ∈ rest) :
    e.fd ∈ x.registered ∧ (x.interest e.fd).conn = e.conn ∧ e.fd ≠ ev.fd := by
  have hpend : e ∈ x.pc.pending := by
    rw [hpc]
    cases stage with
    | close | dec => exact he
    | _ => exact List.mem_cons_of_mem _ he
  have hnd := h.nodup
  rw [hpc] at hnd
  refine ⟨(h.pending e hpend).1, (h.pending e hpend).2, ?_⟩
  intro heq
  exact (List.nodup_cons.mp hnd).1 (heq ▸ List.mem_map_of_mem he)

theorem holds_open (h : WorkerOwned files x) {fd : Fd} (hf : x.Holds fd) :
    ∃ c, files fd = some c := by
  rcases hf with hf | ⟨ev, deleted, hc, rfl⟩
  · exact ⟨_, h.registered_open fd hf⟩
  · exact ⟨_, (h.closing ev deleted hc).1⟩

/-- A worker that holds nothing at `fd` does not see a change of the table there. -/
theorem update_files (h : WorkerOwned files x) {fd : Fd} (hf : ¬x.Holds fd) (o : Option Conn) :
    WorkerOwned (Function.update files fd o) x where
  registered_open fd' hfd' := by
    have hne : fd' ≠ fd := fun he => hf (Or.inl (he ▸ hfd'))
    rw [Function.update_of_ne hne]
    exact h.registered_open fd' hfd'
  nodup := h.nodup
  pending := h.pending
  closing ev deleted hc := by
    have hne : ev.fd ≠ fd := fun he => hf (Or.inr ⟨ev, deleted, hc, he⟩)
    rw [Function.update_of_ne hne]
    exact h.closing ev deleted hc

theorem move (h : WorkerOwned files x) {nRet : ℤ} {pc : WorkerPc}
    (hnd : (pc.batch.map Event.fd).Nodup) (hpend : ∀ ev ∈ pc.pending, ev ∈ x.pc.pending)
    (hclosing : pc.closing = none) : WorkerOwned files { x with nRet := nRet, pc := pc } where
  registered_open := h.registered_open
  nodup := hnd
  pending ev hev := h.pending ev (hpend ev hev)
  closing ev deleted hc := by simp [hclosing] at hc

theorem nodup_dispatch {nRet : ℤ} {events : List Event} (h : (events.map Event.fd).Nodup) :
    ((WorkerPc.dispatch nRet events).batch.map Event.fd).Nodup :=
  h.sublist ((WorkerPc.dispatch_spec nRet events).1.sublist.map _)

theorem mem_pending_dispatch {nRet : ℤ} {events : List Event} {ev : Event}
    (h : ev ∈ (WorkerPc.dispatch nRet events).pending) : ev ∈ events := by
  rw [(WorkerPc.dispatch_spec nRet events).2.1] at h
  exact (WorkerPc.dispatch_spec nRet events).1.subset h

theorem resume (h : WorkerOwned files x) {ev : Event} {stage : Stage} {rest : List Event}
    {p : Pass} (hpc : x.pc = .event ev stage rest) (hst : StillRegistered stage)
    (hp : ∀ stage' ∈ p.stage, StillRegistered stage') :
    WorkerOwned files (x.resume ev rest p) := by
  have hnd := h.nodup
  have hpend : x.pc.pending = ev :: rest := hpc ▸ WorkerPc.pending_event hst
  rw [hpc] at hnd
  unfold Worker.resume
  cases hs : p.stage with
  | none =>
    refine h.move (nodup_dispatch hnd.of_cons) ?_ (WorkerPc.dispatch_spec _ _).2.2
    intro e he
    exact hpend ▸ List.mem_cons_of_mem _ (mem_pending_dispatch he)
  | some stage' =>
    have hst' := hp stage' hs
    refine h.move hnd ?_ (WorkerPc.closing_event hst')
    intro e he
    rw [WorkerPc.pending_event hst'] at he
    exact hpend ▸ he

theorem changeMask (h : WorkerOwned files x) (fd : Fd) (events : BitVec 32) :
    WorkerOwned files (x.changeMask fd events) where
  registered_open fd' hfd' := by
    rw [h.registered_open fd' hfd']
    by_cases he : fd' = fd
    · subst he; simp [Worker.changeMask]
    · simp [Worker.changeMask, he]
  nodup := h.nodup
  pending ev hev := by
    refine ⟨(h.pending ev hev).1, ?_⟩
    rw [← (h.pending ev hev).2]
    by_cases he : ev.fd = fd
    · simp [Worker.changeMask, he]
    · simp [Worker.changeMask, he]
  closing := h.closing

theorem delOk (h : WorkerOwned files x) {ev : Event} {rest : List Event}
    (hpc : x.pc = .event ev .del rest) :
    WorkerOwned files { x.remove ev.fd with pc := .event ev (.close true) rest } where
  registered_open fd hfd := h.registered_open fd (Finset.mem_of_mem_erase hfd)
  nodup := by simpa [hpc, WorkerPc.batch] using h.nodup
  pending e he := by
    obtain ⟨hreg, hconn, hne⟩ := h.behind hpc he
    exact ⟨Finset.mem_erase.mpr ⟨hne, hreg⟩, hconn⟩
  closing e deleted he := by
    simp only [WorkerPc.closing, Option.some.injEq, Prod.mk.injEq] at he
    obtain ⟨rfl, rfl⟩ := he
    have hpe := h.current hpc trivial
    exact ⟨(h.registered_open ev.fd hpe.1).trans (by rw [hpe.2]), by simp [Worker.remove]⟩

theorem delFail (h : WorkerOwned files x) {ev : Event} {rest : List Event}
    (hpc : x.pc = .event ev .del rest) :
    WorkerOwned files { x with pc := .event ev (.close false) rest } where
  registered_open := h.registered_open
  nodup := by simpa [hpc, WorkerPc.batch] using h.nodup
  pending e he := h.pending e (by rw [hpc]; exact List.mem_cons_of_mem _ he)
  closing e deleted he := by
    simp only [WorkerPc.closing, Option.some.injEq, Prod.mk.injEq] at he
    obtain ⟨rfl, rfl⟩ := he
    have hpe := h.current hpc trivial
    exact ⟨(h.registered_open ev.fd hpe.1).trans (by rw [hpe.2]), by simp [hpe.1]⟩

theorem close (h : WorkerOwned files x) {ev : Event} {deleted : Bool} {rest : List Event}
    (hpc : x.pc = .event ev (.close deleted) rest) :
    WorkerOwned (Function.update files ev.fd none)
      { x.remove ev.fd with pc := .event ev .dec rest } where
  registered_open fd hfd := by
    obtain ⟨hne, hmem⟩ := Finset.mem_erase.mp hfd
    rw [Function.update_of_ne hne]
    exact h.registered_open fd hmem
  nodup := by simpa [hpc, WorkerPc.batch] using h.nodup
  pending e he := by
    obtain ⟨hreg, hconn, hne⟩ := h.behind hpc he
    exact ⟨Finset.mem_erase.mpr ⟨hne, hreg⟩, hconn⟩
  closing e deleted he := by simp [WorkerPc.closing] at he

theorem wait (h : WorkerOwned files x) {batch : List (Fd × BitVec 32)}
    (hnd : (batch.map Prod.fst).Nodup) (hreg : ∀ p ∈ batch, p.1 ∈ x.registered) :
    WorkerOwned files { x with pc := .dispatch x.nRet (x.report batch) } where
  registered_open := h.registered_open
  nodup := by
    apply nodup_dispatch
    simpa [Worker.report, Function.comp_def] using hnd
  pending ev hev := by
    obtain ⟨p, hp, rfl⟩ := List.mem_map.mp (mem_pending_dispatch hev)
    exact ⟨hreg p hp, rfl⟩
  closing ev deleted hc := by simp [(WorkerPc.dispatch_spec _ _).2.2] at hc

theorem insert (h : WorkerOwned files x) {fd : Fd} {c : Conn} {events : BitVec 32}
    (hc : files fd = some c) (hf : ¬x.Holds fd) :
    WorkerOwned files (x.insert fd ⟨c, events⟩) where
  registered_open fd' hfd' := by
    rcases Finset.mem_insert.mp hfd' with rfl | hfd'
    · simpa [Worker.insert] using hc
    · have hne : fd' ≠ fd := fun he => hf (Or.inl (he ▸ hfd'))
      simpa [Worker.insert, hne] using h.registered_open fd' hfd'
  nodup := h.nodup
  pending ev hev := by
    obtain ⟨hreg, hconn⟩ := h.pending ev hev
    have hne : ev.fd ≠ fd := fun he => hf (Or.inl (he ▸ hreg))
    exact ⟨Finset.mem_insert_of_mem hreg, by simpa [Worker.insert, hne] using hconn⟩
  closing ev deleted hcl := by
    have hne : ev.fd ≠ fd := fun he => hf (Or.inr ⟨ev, deleted, hcl, he⟩)
    simpa [Worker.insert, hne] using h.closing ev deleted hcl

end WorkerOwned

/-- The descriptor the listener has not handed over yet. -/
def ListenerPc.Holds : ListenerPc → Fd → Prop
  | .assigning _ (.increment _), _ => False
  | .assigning sockfd _, fd => sockfd = fd
  | _, _ => False

theorem ListenerPc.holds_choosing {sockfd fd : Fd} {pc : AssignPc} (h : pc.Choosing) :
    (ListenerPc.assigning sockfd pc).Holds fd ↔ sockfd = fd := by
  cases pc with
  | increment | returned => exact h.elim
  | _ => exact Iff.rfl

namespace Server

variable {n : ℕ} {maxclients : ℤ} {s t : Server n}

/-- Open connection descriptors in the hands of the listener (`none`) and of the workers. -/
def custody (s : Server n) : Custody Fd (Option (Fin n)) where
  live fd := ∃ c, s.files fd = some c
  held o fd := o.elim (s.listener.Holds fd) fun w => (s.workers w).Holds fd

@[simp] theorem custody_live {fd : Fd} : s.custody.live fd ↔ ∃ c, s.files fd = some c := Iff.rfl

@[simp] theorem custody_listener {fd : Fd} :
    s.custody.held none fd ↔ s.listener.Holds fd := Iff.rfl

@[simp] theorem custody_worker {w : Fin n} {fd : Fd} :
    s.custody.held (some w) fd ↔ (s.workers w).Holds fd := Iff.rfl

structure Owned (s : Server n) : Prop where
  files_lt : ∀ fd c, s.files fd = some c → c < s.accepted
  files_inj : ∀ fd fd' c, s.files fd = some c → s.files fd' = some c → fd = fd'
  worker : ∀ w, WorkerOwned s.files (s.workers w)
  custody : s.custody.Exclusive

namespace Owned

theorem listener (h : Owned s) {fd : Fd} (hl : s.listener.Holds fd) :
    (∃ c, s.files fd = some c) ∧ ∀ w, ¬(s.workers w).Holds fd := by
  have hheld : s.custody.held none fd := hl
  refine ⟨h.custody.live hheld, fun w hw => ?_⟩
  have hheld' : s.custody.held (some w) fd := hw
  cases h.custody.unique hheld hheld'

theorem exclusive (h : Owned s) {w w' : Fin n} {fd : Fd} (hw : (s.workers w).Holds fd)
    (hw' : (s.workers w').Holds fd) : w = w' :=
  have hheld : s.custody.held (some w) fd := hw
  have hheld' : s.custody.held (some w') fd := hw'
  Option.some.inj (h.custody.unique hheld hheld')

/-- What a call of `AssignTask` has in its hands until it adds or closes it. -/
theorem assigned (h : Owned s) {sockfd : Fd} {pc : AssignPc}
    (hl : s.listener = .assigning sockfd pc) (hpc : pc.Choosing) :
    (∃ c, s.files sockfd = some c) ∧ ∀ w, ¬(s.workers w).Holds sockfd := by
  apply h.listener
  rw [hl]
  exact (ListenerPc.holds_choosing hpc).mpr rfl

theorem closing (h : Owned s) {w : Fin n} {ev : Event} {deleted : Bool} {rest : List Event}
    (hpc : (s.workers w).pc = .event ev (.close deleted) rest) :
    (s.workers w).Holds ev.fd ∧ s.files ev.fd = some ev.conn ∧
      (ev.fd ∈ (s.workers w).registered ↔ deleted = false) ∧
      ∀ w', w' ≠ w → ¬(s.workers w').Holds ev.fd := by
  have hcl : (s.workers w).pc.closing = some (ev, deleted) := by rw [hpc]; rfl
  have hheld : (s.workers w).Holds ev.fd := Or.inr ⟨ev, deleted, hcl, rfl⟩
  obtain ⟨hc, hreg⟩ := (h.worker w).closing ev deleted hcl
  refine ⟨hheld, hc, hreg, ?_⟩
  intro w' hw hheld'
  exact hw (h.exclusive hheld' hheld)

end Owned

theorem closeFd_eq {fd : Fd} {c : Conn} (h : s.files fd = some c) :
    s.closeFd fd = { s with
      files := Function.update s.files fd none
      closes := Function.update s.closes c (s.closes c + 1)
      workers := fun w => (s.workers w).remove fd } := by
  simp [closeFd, h]

theorem move_setWorker {w : Fin n} {x : Worker}
    (hx : ∀ fd, x.Holds fd ↔ (s.workers w).Holds fd) :
    s.custody.Move (s.setWorker w x).custody := by
  refine .keep (fun _ => Iff.rfl) ?_
  intro o fd
  cases o with
  | none => exact Iff.rfl
  | some w' =>
    by_cases hw : w' = w
    · subst hw; simpa using hx fd
    · simp [hw]

theorem move_setListener {l : ListenerPc} (hl : ∀ fd, l.Holds fd ↔ s.listener.Holds fd) :
    s.custody.Move { s with listener := l }.custody := by
  refine .keep (fun _ => Iff.rfl) ?_
  intro o fd
  cases o with
  | none => exact hl fd
  | some w => exact Iff.rfl

theorem live_update_none {fd fd' : Fd} :
    (∃ c, Function.update s.files fd none fd' = some c) ↔
      (∃ c, s.files fd' = some c) ∧ fd' ≠ fd := by
  by_cases he : fd' = fd
  · subst he; simp
  · simp [he]

theorem listener_forgets {sockfd fd : Fd} {pc : AssignPc}
    (hl : s.listener = .assigning sockfd pc) (hpc : pc.Choosing) :
    False ↔ s.listener.Holds fd ∧ fd ≠ sockfd := by
  rw [hl, ListenerPc.holds_choosing hpc]
  exact ⟨fun hf => hf.elim, fun hf => hf.2 hf.1.symm⟩

namespace Owned

theorem move_refuse (h : Owned s) {sockfd : Fd} (hl : s.listener = .assigning sockfd .close) :
    s.custody.Move { s.closeFd sockfd with listener := .test }.custody := by
  obtain ⟨⟨c, hc⟩, hw⟩ := h.assigned hl trivial
  have hheld : s.listener.Holds sockfd := by rw [hl]; rfl
  rw [closeFd_eq hc]
  refine .drop none sockfd hheld (fun fd => live_update_none) ?_
  intro o fd
  cases o with
  | none => exact listener_forgets hl trivial
  | some w =>
    simp only [custody_worker, Worker.remove_eq (hw w)]
    exact Worker.holds_ne (hw w)

theorem move_addOk (h : Owned s) {sockfd : Fd} {w : Fin n} {r : Registration}
    (hl : s.listener = .assigning sockfd (.add w)) :
    s.custody.Move { s.setWorker w ((s.workers w).insert sockfd r) with
      listener := .assigning sockfd (.increment w) }.custody := by
  obtain ⟨-, hno⟩ := h.assigned hl trivial
  have hheld : s.listener.Holds sockfd := by rw [hl]; rfl
  refine .pass none (some w) sockfd hheld (fun _ => Iff.rfl) ?_
  intro o fd
  cases o with
  | none =>
    simp only [custody_listener, reduceCtorEq, false_and, or_false]
    exact listener_forgets hl trivial
  | some w' =>
    by_cases hw : w' = w
    · subst hw
      simp only [custody_worker, setWorker_workers, Function.update_self,
        Worker.holds_insert, true_and, ← Worker.holds_ne (hno w')]
    · simp only [custody_worker, setWorker_workers, Function.update_of_ne hw,
        Option.some.injEq, hw, false_and, or_false]
      exact Worker.holds_ne (hno w')

theorem move_close (h : Owned s) {w : Fin n} {ev : Event} {deleted : Bool} {rest : List Event}
    (hpc : (s.workers w).pc = .event ev (.close deleted) rest) :
    s.custody.Move ((s.closeFd ev.fd).setWorker w
      { (s.closeFd ev.fd).workers w with pc := .event ev .dec rest }).custody := by
  obtain ⟨hheld, hc, -, hno⟩ := h.closing hpc
  rw [closeFd_eq hc]
  refine .drop (some w) ev.fd hheld (fun fd => live_update_none) ?_
  intro o fd
  cases o with
  | none =>
    refine ⟨fun hf => ⟨hf, ?_⟩, And.left⟩
    rintro rfl
    exact (h.listener hf).2 w hheld
  | some w' =>
    by_cases hw : w' = w
    · subst hw
      simpa using Worker.holds_close hpc
    · simp only [custody_worker, setWorker_workers, Function.update_of_ne hw,
        Worker.remove_eq (hno w' hw)]
      exact Worker.holds_ne (hno w' hw)

/-- Every step but a failed registration moves custody as it should. -/
theorem move (h : Owned s) {a : Action n} (ht : Transition maxclients s a t)
    (ha : a ≠ .assign (.add false)) : s.custody.Move t.custody := by
  cases ht with
  | shutdown => exact .keep (fun _ => Iff.rfl) fun _ _ => Iff.rfl
  | listenerTest hl =>
    apply move_setListener
    intro fd
    rw [hl]
    split <;> exact Iff.rfl
  | listenFails hl =>
    apply move_setListener
    intro fd
    rw [hl]
    exact Iff.rfl
  | @accept fd hl hfd =>
    refine .take none fd (by simp [hfd]) (fun fd' => ?_) fun o fd' => ?_
    · by_cases he : fd' = fd
      · subst he; simp
      · simp [he]
    · cases o with
      | none =>
        have hno : ¬s.listener.Holds fd' := by rw [hl]; exact id
        have hnew : (ListenerPc.assigning fd (.begin n maxclients)).Holds fd' ↔ fd = fd' :=
          ListenerPc.holds_choosing AssignPc.choosing_loopHead
        simp [hnew, hno, eq_comm]
      | some w => simp
  | read hl _ hpc =>
    obtain ⟨hc, hc'⟩ := AssignPc.choosing_afterRead hpc
    apply move_setListener
    intro fd
    rw [hl, ListenerPc.holds_choosing hc, ListenerPc.holds_choosing hc']
  | refuse hl => exact h.move_refuse hl
  | addOk hl => exact h.move_addOk hl
  | addFail => exact (ha rfl).elim
  | @increment sockfd w hl =>
    refine .keep (fun _ => Iff.rfl) ?_
    intro o fd
    cases o with
    | none =>
      have hno : ¬s.listener.Holds fd := by rw [hl]; exact id
      simp only [custody_listener, hno, iff_false]
      exact id
    | some w' =>
      by_cases hw : w' = w
      · subst hw
        simp only [custody_worker, setWorker_workers, Function.update_self]
        exact Iff.rfl
      · simp [hw]
  | @workerTest w hpc =>
    refine move_setWorker fun fd => Worker.holds_congr rfl ?_ (by rw [hpc]; rfl)
    split <;> rfl
  | @wait w batch hpc =>
    exact move_setWorker fun fd =>
      Worker.holds_congr rfl (WorkerPc.dispatch_spec _ _).2.2 (by rw [hpc]; rfl)
  | @quiet w act ev stage rest p hpc hq hp =>
    obtain ⟨hst, hst'⟩ := stillRegistered_advance (Or.inl hq) hp
    exact move_setWorker fun fd => Worker.holds_congr rfl (Worker.closing_resume hst')
      (by rw [hpc]; exact WorkerPc.closing_event hst)
  | @modOk w ev stage rest p hpc hp hreg =>
    obtain ⟨hst, hst'⟩ := stillRegistered_advance (Or.inr rfl) hp
    exact move_setWorker fun fd => Worker.holds_congr rfl (Worker.closing_resume hst')
      (by rw [hpc]; exact WorkerPc.closing_event hst)
  | delOk hpc hreg => exact move_setWorker fun fd => Worker.holds_delOk hpc hreg
  | @delFail w ev rest hpc =>
    have hreg := ((h.worker w).current hpc trivial).1
    exact move_setWorker fun fd => Worker.holds_delFail hpc hreg
  | close hpc => exact h.move_close hpc
  | @dec w ev rest hpc =>
    exact move_setWorker fun fd =>
      Worker.holds_congr rfl (WorkerPc.dispatch_spec _ _).2.2 (by rw [hpc]; rfl)

/-- A failed registration is a loss: the listener forgets the descriptor. -/
theorem lose (h : Owned s) (ht : Transition maxclients s (.assign (.add false)) t) :
    ∃ fd, s.custody.Lose t.custody fd := by
  cases ht with
  | @addFail sockfd w hl =>
    obtain ⟨-, hno⟩ := h.assigned hl trivial
    have hheld : s.listener.Holds sockfd := by rw [hl]; rfl
    refine ⟨sockfd, ⟨none, hheld⟩, fun _ => Iff.rfl, fun o fd => ?_⟩
    cases o with
    | none => exact listener_forgets hl trivial
    | some w' => exact Worker.holds_ne (hno w')

theorem worker_setWorker (h : Owned s) {w : Fin n} {x : Worker} (hx : WorkerOwned s.files x) :
    ∀ w', WorkerOwned s.files (Function.update s.workers w x w') :=
  forall_setWorker h.worker hx

theorem worker_close (h : Owned s) {fd : Fd} {w : Fin n} (hw : ¬(s.workers w).Holds fd) :
    WorkerOwned (Function.update s.files fd none) ((s.workers w).remove fd) := by
  rw [Worker.remove_eq hw]
  exact (h.worker w).update_files hw none

theorem worker_step (h : Owned s) {a : Action n} (ht : Transition maxclients s a t) :
    ∀ w, WorkerOwned t.files (t.workers w) := by
  cases ht with
  | shutdown | listenerTest | listenFails | read | addFail => exact h.worker
  | @accept fd hl hfd =>
    refine fun w => (h.worker w).update_files (fun hh => ?_) _
    obtain ⟨c, hc⟩ := (h.worker w).holds_open hh
    simp [hfd] at hc
  | @refuse sockfd hl =>
    obtain ⟨⟨c, hc⟩, hw⟩ := h.assigned hl trivial
    rw [closeFd_eq hc]
    exact fun w => h.worker_close (hw w)
  | @addOk sockfd w c hl hc =>
    exact h.worker_setWorker ((h.worker w).insert hc ((h.assigned hl trivial).2 w))
  | @increment sockfd w hl =>
    exact h.worker_setWorker ⟨(h.worker w).registered_open, (h.worker w).nodup,
      (h.worker w).pending, (h.worker w).closing⟩
  | @workerTest w hpc =>
    refine h.worker_setWorker ((h.worker w).move ?_ ?_ ?_) <;> split <;>
      simp [WorkerPc.batch, WorkerPc.pending, WorkerPc.closing]
  | @wait w batch hpc hnd hreg => exact h.worker_setWorker ((h.worker w).wait hnd hreg)
  | @quiet w act ev stage rest p hpc hq hp =>
    obtain ⟨hst, hst'⟩ := stillRegistered_advance (Or.inl hq) hp
    exact h.worker_setWorker ((h.worker w).resume hpc hst hst')
  | @modOk w ev stage rest p hpc hp hreg =>
    obtain ⟨hst, hst'⟩ := stillRegistered_advance (Or.inr rfl) hp
    exact h.worker_setWorker (((h.worker w).changeMask _ _).resume hpc hst hst')
  | @delOk w ev rest hpc hreg => exact h.worker_setWorker ((h.worker w).delOk hpc)
  | @delFail w ev rest hpc => exact h.worker_setWorker ((h.worker w).delFail hpc)
  | @close w ev deleted rest hpc =>
    obtain ⟨-, hc, -, hno⟩ := h.closing hpc
    rw [closeFd_eq hc]
    intro w'
    by_cases hw : w' = w
    · subst hw
      simpa using (h.worker w').close hpc
    · simpa [hw] using h.worker_close (hno w' hw)
  | @dec w ev rest hpc =>
    have hnd := (h.worker w).nodup
    rw [hpc] at hnd
    have hx : WorkerOwned s.files { s.workers w with
        nRet := (s.workers w).nRet, pc := .dispatch (s.workers w).nRet rest } :=
      (h.worker w).move (WorkerOwned.nodup_dispatch hnd.of_cons)
        (fun e he => by rw [hpc]; exact WorkerOwned.mem_pending_dispatch he)
        (WorkerPc.dispatch_spec _ _).2.2
    exact h.worker_setWorker ⟨hx.registered_open, hx.nodup, hx.pending, hx.closing⟩

/-- Either the table is the same or one entry was taken or dropped. -/
theorem files_step {a : Action n} (ht : Transition maxclients s a t) :
    (t.files = s.files ∧ t.accepted = s.accepted ∧ t.closes = s.closes) ∨
    (∃ fd, s.files fd = none ∧ t.files = Function.update s.files fd (some s.accepted) ∧
      t.accepted = s.accepted + 1 ∧ t.closes = s.closes) ∨
    (∃ fd c, s.files fd = some c ∧ t.files = Function.update s.files fd none ∧
      t.accepted = s.accepted ∧ t.closes = Function.update s.closes c (s.closes c + 1)) := by
  have hclose : ∀ fd, (s.closeFd fd).files = s.files ∧ (s.closeFd fd).accepted = s.accepted ∧
        (s.closeFd fd).closes = s.closes ∨
      ∃ c, s.files fd = some c ∧ (s.closeFd fd).files = Function.update s.files fd none ∧
        (s.closeFd fd).accepted = s.accepted ∧
        (s.closeFd fd).closes = Function.update s.closes c (s.closes c + 1) := by
    intro fd
    cases hc : s.files fd with
    | none => exact Or.inl (by simp [closeFd, hc])
    | some c => exact Or.inr ⟨c, rfl, by simp [closeFd_eq hc]⟩
  cases ht with
  | @accept fd hl hfd => exact Or.inr (Or.inl ⟨fd, hfd, rfl, rfl, rfl⟩)
  | @refuse sockfd hl => exact (hclose sockfd).imp id fun ⟨c, h⟩ => Or.inr ⟨sockfd, c, h⟩
  | @close w ev deleted rest hpc =>
    exact (hclose ev.fd).imp id fun ⟨c, h⟩ => Or.inr ⟨ev.fd, c, h⟩
  | _ => exact Or.inl ⟨rfl, rfl, rfl⟩

theorem update_eq_some {files : Fd → Option Conn} {fd fd' : Fd} {c c' : Conn}
    (h : Function.update files fd (some c) fd' = some c') :
    (fd' = fd ∧ c' = c) ∨ (fd' ≠ fd ∧ files fd' = some c') := by
  by_cases he : fd' = fd
  · subst he
    simp only [Function.update_self, Option.some.injEq] at h
    exact Or.inl ⟨rfl, h.symm⟩
  · rw [Function.update_of_ne he] at h
    exact Or.inr ⟨he, h⟩

theorem update_none_eq_some {files : Fd → Option Conn} {fd fd' : Fd} {c : Conn}
    (h : Function.update files fd none fd' = some c) : fd' ≠ fd ∧ files fd' = some c := by
  by_cases he : fd' = fd
  · subst he; simp at h
  · exact ⟨he, by rwa [Function.update_of_ne he] at h⟩

theorem step (h : Owned s) {a : Action n} (ht : Transition maxclients s a t) : Owned t where
  files_lt fd c hc := by
    rcases files_step ht with ⟨hf, ha, -⟩ | ⟨fd₀, -, hf, ha, -⟩ | ⟨fd₀, c₀, -, hf, ha, -⟩ <;>
      rw [hf] at hc <;> rw [ha]
    · exact h.files_lt fd c hc
    · rcases update_eq_some hc with ⟨-, rfl⟩ | ⟨-, hc⟩
      · exact Nat.lt_succ_self _
      · exact (h.files_lt fd c hc).trans (Nat.lt_succ_self _)
    · exact h.files_lt fd c (update_none_eq_some hc).2
  files_inj fd fd' c hc hc' := by
    rcases files_step ht with ⟨hf, -⟩ | ⟨fd₀, -, hf, -⟩ | ⟨fd₀, c₀, -, hf, -⟩ <;>
      rw [hf] at hc hc'
    · exact h.files_inj fd fd' c hc hc'
    · rcases update_eq_some hc with ⟨rfl, he⟩ | ⟨-, hc⟩ <;>
        rcases update_eq_some hc' with ⟨he', rfl⟩ | ⟨-, hc'⟩
      · exact he'.symm
      · exact ((h.files_lt fd' c hc').ne he).elim
      · exact ((h.files_lt fd _ hc).false).elim
      · exact h.files_inj fd fd' c hc hc'
    · exact h.files_inj fd fd' c (update_none_eq_some hc).2 (update_none_eq_some hc').2
  worker := h.worker_step ht
  custody := by
    by_cases ha : a = .assign (.add false)
    · subst ha
      obtain ⟨fd, hl⟩ := h.lose ht
      exact h.custody.lose hl
    · exact h.custody.move (h.move ht ha)

theorem of_start (h : Start s) : Owned s where
  files_lt fd c hc := by simp [h.files fd] at hc
  files_inj fd fd' c hc := by simp [h.files fd] at hc
  worker w := by
    obtain ⟨-, hreg, -, hpc⟩ := h.worker w
    constructor
    · simp [hreg]
    all_goals rcases hpc with hpc | hpc <;>
      simp [hpc, WorkerPc.batch, WorkerPc.pending, WorkerPc.closing]
  custody := by
    have hno : ∀ o fd, ¬s.custody.held o fd := by
      rintro (_ | w) fd hh
      · rw [custody_listener, h.listener] at hh
        exact hh
      · obtain ⟨-, hreg, -, hpc⟩ := h.worker w
        rcases hpc with hpc | hpc <;> simp [Worker.Holds, hreg, hpc, WorkerPc.closing] at hh
    exact ⟨fun hh => (hno _ _ hh).elim, fun hh => (hno _ _ hh).elim⟩

theorem of_reaches {tr : List (Action n)} (h : (serverMachine n maxclients).Reaches tr s) :
    Owned s :=
  h.invariant of_start fun hs hstep => hs.step (step_cases hstep)

end Owned

theorem accepted_le {a : Action n} (ht : Transition maxclients s a t) :
    s.accepted ≤ t.accepted := by
  rcases Owned.files_step ht with ⟨-, ha, -⟩ | ⟨-, -, -, ha, -⟩ | ⟨-, -, -, -, ha, -⟩ <;> omega

theorem files_closeFd {fd fd' : Fd} {c : Conn} (h : (s.closeFd fd').files fd = some c) :
    s.files fd = some c := by
  unfold closeFd at h
  split at h
  · exact h
  · exact (Owned.update_none_eq_some h).2

/-- The numbers that `accept` has returned, by connection. -/
def acceptedFds (tr : List (Action n)) : List Fd :=
  tr.filterMap fun
    | .accept fd => some fd
    | _ => none

@[simp] theorem acceptedFds_append (tr tr' : List (Action n)) :
    acceptedFds (tr ++ tr') = acceptedFds tr ++ acceptedFds tr' := List.filterMap_append

theorem acceptedFds_append_of_some {tr tr' : List (Action n)} {c : Conn} {fd : Fd}
    (h : (acceptedFds tr)[c]? = some fd) : (acceptedFds (tr ++ tr'))[c]? = some fd := by
  obtain ⟨hlt, -⟩ := List.getElem?_eq_some_iff.mp h
  rw [acceptedFds_append, List.getElem?_append_left hlt, h]

/-- An open connection has the number its `accept` returned. -/
theorem acceptedFds_of_reaches {tr : List (Action n)}
    (h : (serverMachine n maxclients).Reaches tr s) :
    (acceptedFds tr).length = s.accepted ∧
      ∀ fd c, s.files fd = some c → (acceptedFds tr)[c]? = some fd := by
  refine h.history (Q := fun tr s => (acceptedFds tr).length = s.accepted ∧
    ∀ fd c, s.files fd = some c → (acceptedFds tr)[c]? = some fd) (fun {s} (hs : Start s) => ?_) ?_
  · exact ⟨hs.accepted.symm, fun fd c hc => by simp [hs.files fd] at hc⟩
  · rintro tr s a t hr ⟨hlen, ih⟩ hstep
    cases step_cases hstep with
    | @accept fd₀ hl hfd =>
      refine ⟨by simp [acceptedFds, ← hlen], fun fd c hc => ?_⟩
      rcases Owned.update_eq_some hc with ⟨rfl, rfl⟩ | ⟨-, hc⟩
      · rw [acceptedFds_append, ← hlen]
        exact List.getElem?_concat_length
      · exact acceptedFds_append_of_some (ih fd c hc)
    | refuse | close =>
      rw [acceptedFds_append, show acceptedFds [_] = [] from rfl, List.append_nil]
      exact ⟨hlen.trans (closeFd_accepted _).symm, fun fd c hc => ih fd c (files_closeFd hc)⟩
    | _ =>
      rw [acceptedFds_append, show acceptedFds [_] = [] from rfl, List.append_nil]
      exact ⟨hlen, ih⟩

end Server
end EpollThreads.Dispatch
