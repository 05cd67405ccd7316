import EpollThreads.Dispatch.ClientLimit

/-!
# How much the threads have still to do

An upper bound on the calls each thread makes until it next tests `shutdown`,
for a listener and workers that find it set there. Every call but a transfer
that is to be repeated lowers it, and the configured limits bound it in every
reachable state.
-/

namespace EpollThreads.Events

open Foundations

namespace Stage

/-- The calls the handling of an event can still take, repeated transfers not counted. -/
def work : Stage → ℕ
  | .recvn r => r.n.toNat + MIN_BUFSZ + 8
  | .changeToWrite => MIN_BUFSZ + 7
  | .format => MIN_BUFSZ + 6
  | .sendn s => s.n.toNat + 6
  | .changeToRead => 5
  | .iError => 4
  | .del => 3
  | .close _ => 2
  | .dec => 1

/-- The same for the rest of an event; without a stage nothing is left of it. -/
def rest : Option Stage → ℕ
  | none => 0
  | some stage => stage.work

/-- What one event can take. -/
def eventWork : ℕ := 2 * MIN_BUFSZ + 8

theorem rest_afterError (nRet : ℤ) : rest (afterError nRet) ≤ 3 := by
  unfold afterError
  split <;> simp [rest, work]

theorem rest_afterWrite (events : BitVec 32) (nRet : ℤ) : rest (afterWrite events nRet) ≤ 4 := by
  unfold afterWrite
  split
  · simp [rest, work]
  · exact (rest_afterError nRet).trans (by decide)

theorem rest_afterRead (events : BitVec 32) (nRet : ℤ) :
    rest (afterRead events nRet) ≤ MIN_BUFSZ + 6 := by
  unfold afterRead
  split
  · simp [rest, work]
  · exact (rest_afterWrite events nRet).trans (by decide)

theorem work_beginEvent {events : BitVec 32} {nRet : ℤ} {stage : Stage}
    (h : beginEvent events nRet = some stage) : stage.work ≤ eventWork := by
  have hle : rest (beginEvent events nRet) ≤ eventWork := by
    unfold beginEvent
    split
    · decide
    · exact (rest_afterRead events nRet).trans (by decide)
  rwa [h] at hle

theorem rest_ofRecvn (events : BitVec 32) (nRet : ℤ) {l : LoopStep Recvn} {k : ℕ}
    (hk : ∀ r, l = .again r → r.n.toNat < k) :
    rest (ofRecvn events nRet l).stage < k + MIN_BUFSZ + 8 := by
  cases l with
  | again r =>
    have hlt := hk r rfl
    simp only [ofRecvn, rest, work]
    omega
  | done bytes =>
    have hle := rest_afterRead events (-1)
    simp only [ofRecvn]
    split <;> simp only [rest, work] at * <;> omega

theorem rest_ofSendn (events : BitVec 32) (nRet : ℤ) {l : LoopStep Sendn} {k : ℕ}
    (hk : ∀ s, l = .again s → s.n.toNat < k) : rest (ofSendn events nRet l).stage < k + 6 := by
  cases l with
  | again s =>
    have hlt := hk s rfl
    simp only [ofSendn, rest, work]
    omega
  | done bytes =>
    have hle := rest_afterWrite events (-1)
    simp only [ofSendn]
    split <;> simp only [rest, work] at * <;> omega

/-- A `recv` that is not tried again leaves less to receive. -/
theorem again_recv {r r' : Recvn} {res : RecvResult} {errno : ℤ} (ha : r.Admits res)
    (h : r.recv res errno = .again r') :
    ((HandlerAct.recv res errno).retries = true ∧ r' = r) ∨ r'.n.toNat < r.n.toNat := by
  cases res with
  | data bytes =>
    obtain ⟨hne, hle⟩ := ha
    have hpos := List.length_pos_iff.mpr hne
    simp only [Recvn.recv, Recvn.test] at h
    split at h
    · cases h
      right
      simp only
      omega
    · cases h
  | eof | fail =>
    simp only [Recvn.recv] at h
    split at h
    · rename_i he
      cases h
      exact Or.inl ⟨by simp [HandlerAct.retries, he], rfl⟩
    · cases h

theorem again_send {s s' : Sendn} {res : SendResult} {errno : ℤ} (ha : s.Admits res)
    (h : s.send res errno = .again s') :
    ((HandlerAct.send res errno).retries = true ∧ s' = s) ∨ s'.n.toNat < s.n.toNat := by
  cases res with
  | sent nRet =>
    obtain ⟨hpos, hle⟩ := ha
    simp only [Sendn.send, if_neg hpos.ne', Sendn.test] at h
    split at h
    · cases h
      right
      simp only
      omega
    · cases h
  | fail =>
    simp only [Sendn.send] at h
    split at h
    · rename_i he
      cases h
      exact Or.inl ⟨by simp [HandlerAct.retries, he], rfl⟩
    · cases h

/-- Every call but one to be repeated is a call less. -/
theorem rest_advance {role : Role} {sockfd : ℕ} {events : BitVec 32} {nRet : ℤ} {stage : Stage}
    {act : HandlerAct} {p : Pass} (h : stage.advance role sockfd events nRet act = some p) :
    rest p.stage + (if act.retries then 0 else 1) ≤ stage.work := by
  unfold advance at h
  split at h <;> simp only [Option.ite_none_right_eq_some, Option.some.injEq, reduceCtorEq] at h
  · rename_i r res errno
    obtain ⟨ha, rfl⟩ := h
    have hlt := rest_ofRecvn events nRet (l := r.recv res errno)
      (k := r.n.toNat + if (HandlerAct.recv res errno).retries then 1 else 0) (by
        intro r' hagain
        rcases again_recv ha hagain with ⟨hr, rfl⟩ | hlt
        · simp [hr]
        · exact Nat.lt_add_right _ hlt)
    simp only [work]
    split_ifs at hlt ⊢ <;> omega
  · subst h
    have hle := rest_afterRead events 0
    simp only [HandlerAct.retries, Bool.false_eq_true, if_false, work]
    omega
  · rename_i usec
    obtain ⟨hlen, rfl⟩ := h
    have hn := (Sendn.test_start (message_ne_nil role sockfd usec) hlen).2.room
    rw [(Sendn.test_start (message_ne_nil role sockfd usec) hlen).1]
    simp only [ofSendn, rest, HandlerAct.retries, Bool.false_eq_true, if_false, work, hn]
    simp only [Sendn.start]
    omega
  · rename_i s res errno
    obtain ⟨ha, rfl⟩ := h
    have hlt := rest_ofSendn events nRet (l := s.send res errno)
      (k := s.n.toNat + if (HandlerAct.send res errno).retries then 1 else 0) (by
        intro s' hagain
        rcases again_send ha hagain with ⟨hr, rfl⟩ | hlt
        · simp [hr]
        · exact Nat.lt_add_right _ hlt)
    simp only [work]
    split_ifs at hlt ⊢ <;> omega
  · subst h
    have hle := rest_afterWrite events 0
    simp only [HandlerAct.retries, Bool.false_eq_true, if_false, work]
    omega
  · subst h
    have hle := rest_afterError (-1)
    simp only [HandlerAct.retries, Bool.false_eq_true, if_false, work]
    omega
  · subst h
    simp [HandlerAct.retries, rest, work]
  · subst h
    split <;> simp [HandlerAct.retries, rest, work]
  · subst h
    simp [HandlerAct.retries, rest, work]

end Stage

end EpollThreads.Events

namespace EpollThreads.Dispatch

open Foundations Events

/-- An action that gets nobody further: one more signal, or a transfer to be tried again. -/
def Action.idle {n : ℕ} : Action n → Bool
  | .shutdown => true
  | .handle _ act => act.retries
  | _ => false

namespace AssignPc

/-- The steps a call can still take, and what the worker it picks may get to do. -/
def work (size : ℕ) : AssignPc → ℕ
  | .count i _ _ => 3 * (size - i) + 2 + Stage.eventWork
  | .compare i _ _ left right =>
      3 * (size - (i + 1)) + (if left.isNone then 1 else 0) + (if right.isNone then 1 else 0) +
        2 + Stage.eventWork
  | .close => 1
  | .add _ => 2 + Stage.eventWork
  | .increment _ => 1
  | .returned => 0

theorem work_loopHead (size : ℕ) (maxclients : ℤ) (i target : ℕ) (activeConns : ℤ) :
    (loopHead size maxclients i target activeConns).work size ≤
      3 * (size - i) + 2 + Stage.eventWork := by
  unfold loopHead
  split_ifs <;> simp only [work] <;> omega

theorem work_afterRead {size : ℕ} {maxclients : ℤ} {pc pc' : AssignPc} {r : CounterRead} {v : ℤ}
    {w : Fin size} (hw : pc.reads r = some (w : ℕ))
    (h : pc.afterRead size maxclients r v = some pc') : pc'.work size + 1 ≤ pc.work size := by
  have hcompared : ∀ (i target : ℕ) (activeConns l c : ℤ),
      (compared size maxclients i target activeConns l c).work size ≤
        3 * (size - (i + 1)) + 2 + Stage.eventWork :=
    fun i target activeConns l c => work_loopHead ..
  cases afterRead_cases h with
  | @count i target activeConns =>
    simp only [reads, Option.some.injEq] at hw
    have hlt := w.isLt
    simp only [work, Option.isNone_none, if_true]
    omega
  | leftFirst | rightFirst => simp [work]
  | @leftLast i target activeConns _ right =>
    have hpc : (compare i target activeConns none (some right)).work size =
        3 * (size - (i + 1)) + 3 + Stage.eventWork := by simp [work]
    have hle := hcompared i target activeConns v right
    omega
  | @rightLast i target activeConns _ left =>
    have hpc : (compare i target activeConns (some left) none).work size =
        3 * (size - (i + 1)) + 3 + Stage.eventWork := by simp [work]
    have hle := hcompared i target activeConns left v
    omega

end AssignPc

/-- With `shutdown` set: the accept in progress, and the call of `AssignTask` it leads to. -/
def ListenerPc.work (size : ℕ) : ListenerPc → ℕ
  | .returned => 0
  | .test => 1
  | .assigning _ pc => pc.work size + 1
  | .listen => 3 * size + 4 + Stage.eventWork

/-- With `shutdown` set: the batch in progress, or the one to come from this many descriptors. -/
def WorkerPc.work (registered : ℕ) : WorkerPc → ℕ
  | .notStarted | .returned => 0
  | .test => 1
  | .wait => registered * Stage.eventWork + 2
  | .event _ stage rest => stage.work + rest.length * Stage.eventWork + 1

theorem WorkerPc.work_mono {k k' : ℕ} (h : k ≤ k') (pc : WorkerPc) : pc.work k ≤ pc.work k' := by
  cases pc with
  | wait => exact Nat.add_le_add_right (Nat.mul_le_mul_right _ h) 2
  | _ => exact le_rfl

theorem WorkerPc.work_succ (k : ℕ) (pc : WorkerPc) :
    pc.work (k + 1) ≤ pc.work k + Stage.eventWork := by
  cases pc with
  | wait =>
    simp only [work, Nat.add_mul, Nat.one_mul]
    omega
  | _ => exact Nat.le_add_right ..

theorem WorkerPc.work_dispatch (k : ℕ) (nRet : ℤ) (events : List Event) :
    (dispatch nRet events).work k ≤ events.length * Stage.eventWork + 1 := by
  rcases dispatch_cases nRet events with hd | ⟨ev, stage, rest, hd, hs, hb⟩ <;> rw [hd]
  · exact Nat.le_add_left ..
  · have hlen : (rest.length + 1) * Stage.eventWork ≤ events.length * Stage.eventWork :=
      Nat.mul_le_mul_right _ hs.length_le
    have hstage := Stage.work_beginEvent hb
    rw [Nat.add_mul, Nat.one_mul] at hlen
    simp only [work]
    omega

namespace Worker

def work (x : Worker) : ℕ := x.pc.work x.registered.card

theorem work_event {x : Worker} {ev : Event} {stage : Stage} {rest : List Event}
    (hpc : x.pc = .event ev stage rest) :
    x.work = stage.work + rest.length * Stage.eventWork + 1 := by
  rw [work, hpc]
  rfl

theorem work_remove (x : Worker) (fd : Fd) : (x.remove fd).work ≤ x.work :=
  WorkerPc.work_mono (Finset.card_le_card (Finset.erase_subset ..)) x.pc

theorem work_insert (x : Worker) (fd : Fd) (r : Registration) :
    (x.insert fd r).work ≤ x.work + Stage.eventWork :=
  (WorkerPc.work_mono (Finset.card_insert_le ..) x.pc).trans (WorkerPc.work_succ ..)

theorem work_resume (x : Worker) (ev : Event) (rest : List Event) (p : Pass) :
    (x.resume ev rest p).work ≤ Stage.rest p.stage + rest.length * Stage.eventWork + 1 := by
  unfold resume work
  cases p.stage with
  | none => simpa [Stage.rest] using WorkerPc.work_dispatch _ p.nRet rest
  | some stage => exact le_rfl

theorem work_wait {x : Worker} {batch : List (Fd × BitVec 32)} (hpc : x.pc = .wait)
    (hnd : (batch.map Prod.fst).Nodup) (hreg : ∀ p ∈ batch, p.1 ∈ x.registered) :
    { x with pc := .dispatch x.nRet (x.report batch) : Worker }.work + 1 ≤ x.work := by
  have hsub : (batch.map Prod.fst).toFinset ⊆ x.registered := by
    intro fd hfd
    obtain ⟨p, hp, rfl⟩ := List.mem_map.mp (List.mem_toFinset.mp hfd)
    exact hreg p hp
  have hlen : batch.length ≤ x.registered.card := by
    have hcard := Finset.card_le_card hsub
    rwa [List.toFinset_card_of_nodup hnd, List.length_map] at hcard
  have hreport : (x.report batch).length = batch.length := List.length_map _
  have hd := WorkerPc.work_dispatch x.registered.card x.nRet (x.report batch)
  have hmul := Nat.mul_le_mul_right Stage.eventWork hlen
  have hx : x.work = x.registered.card * Stage.eventWork + 2 := by rw [work, hpc]; rfl
  rw [hreport] at hd
  simp only [work] at hx ⊢
  omega

end Worker

namespace Server

variable {n : ℕ} {maxclients : ℤ} {s t : Server n}

def work (s : Server n) : ℕ := s.listener.work n + ∑ w, (s.workers w).work

theorem work_setWorker (s : Server n) (w : Fin n) (x : Worker) :
    (s.setWorker w x).work + (s.workers w).work = s.work + x.work := by
  have hsplit (u : Server n) : ∑ v, (u.workers v).work =
      (u.workers w).work + ∑ v ∈ Finset.univ.erase w, (u.workers v).work :=
    (Finset.add_sum_erase _ _ (Finset.mem_univ w)).symm
  have hothers : ∑ v ∈ Finset.univ.erase w, ((s.setWorker w x).workers v).work =
      ∑ v ∈ Finset.univ.erase w, (s.workers v).work := by
    refine Finset.sum_congr rfl fun v hv => ?_
    rw [setWorker_workers, Function.update_of_ne (Finset.ne_of_mem_erase hv)]
  rw [work, work, hsplit s, hsplit (s.setWorker w x), hothers, setWorker_listener,
    setWorker_workers, Function.update_self]
  omega

theorem work_closeFd (s : Server n) (fd : Fd) : (s.closeFd fd).work ≤ s.work := by
  unfold closeFd
  split
  · exact le_rfl
  · exact Nat.add_le_add_left (Finset.sum_le_sum fun w _ => Worker.work_remove ..) _

theorem work_move {w : Fin n} {x : Worker} {c : ℕ} (hx : x.work + c ≤ (s.workers w).work) :
    (s.setWorker w x).work + c ≤ s.work := by
  have hset := s.work_setWorker w x
  omega

theorem work_setListener {l : ListenerPc} {c : ℕ} (hl : l.work n + c ≤ s.listener.work n) :
    work { s with listener := l } + c ≤ s.work := by
  simp only [work]
  omega

/-- With `shutdown` set, every step but an idle one is one less to take. -/
theorem work_step {a : Action n} (hs : s.shutdown = true) (ht : Transition maxclients s a t) :
    t.work + (if a.idle then 0 else 1) ≤ s.work := by
  cases ht with
  | shutdown => exact le_rfl
  | listenerTest hl => exact work_setListener (c := 1) (by rw [hl, if_pos hs]; exact le_rfl)
  | listenFails hl =>
    exact work_setListener (c := 1) (by rw [hl]; simp only [ListenerPc.work]; omega)
  | @accept fd hl hfd =>
    have hbegin : (AssignPc.begin n maxclients).work n ≤ 3 * n + 2 + Stage.eventWork :=
      AssignPc.work_loopHead n maxclients 0 1 1
    refine work_setListener (l := .assigning fd (.begin n maxclients)) (c := 1) ?_
    rw [hl]
    simp only [ListenerPc.work]
    omega
  | read hl hw hpc =>
    have hread := AssignPc.work_afterRead hw hpc
    refine work_setListener (c := 1) ?_
    rw [hl]
    simp only [ListenerPc.work]
    omega
  | @refuse sockfd hl =>
    have hset : work { s.closeFd sockfd with listener := .test } + 1 ≤ (s.closeFd sockfd).work :=
      work_setListener (by rw [closeFd_listener, hl]; exact le_rfl)
    exact hset.trans (s.work_closeFd sockfd)
  | @addOk sockfd w c hl hc he hr =>
    have hset := s.work_setWorker w ((s.workers w).insert sockfd
      ⟨c, addEvents .write .edgeTriggered⟩)
    have hinsert := (s.workers w).work_insert sockfd ⟨c, addEvents .write .edgeTriggered⟩
    have hroom : ∀ k, k + (1 + Stage.eventWork) ≤ (s.setWorker w ((s.workers w).insert sockfd
        ⟨c, addEvents .write .edgeTriggered⟩)).work → k + 1 ≤ s.work := by
      intro k hk
      omega
    refine hroom _ (work_setListener ?_)
    rw [setWorker_listener, hl]
    simp only [ListenerPc.work, AssignPc.work]
    omega
  | addFail hl =>
    exact work_setListener (c := 1)
      (by rw [hl]; simp only [ListenerPc.work, AssignPc.work]; omega)
  | @increment sockfd w hl =>
    have hset : (s.setWorker w (s.workers w).increment).work + 0 ≤ s.work := work_move le_rfl
    exact (work_setListener (c := 1) (by rw [setWorker_listener, hl]; exact le_rfl)).trans hset
  | workerTest hpc =>
    refine work_move (c := 1) ?_
    simp only [Worker.work, hpc, if_pos hs]
    exact le_rfl
  | wait hpc hnd hreg => exact work_move (c := 1) (Worker.work_wait hpc hnd hreg)
  | @quiet w act ev stage rest p hpc hq hp =>
    have hadv : Stage.rest p.stage + (if (Action.handle w act).idle then 0 else 1) ≤ stage.work :=
      Stage.rest_advance hp
    have hresume := (s.workers w).work_resume ev rest p
    refine work_move ?_
    rw [Worker.work_event hpc]
    omega
  | @modOk w ev stage rest p hpc hp hreg =>
    have hadv : Stage.rest p.stage + 1 ≤ stage.work := Stage.rest_advance hp
    have hresume := ((s.workers w).changeMask ev.fd
      (changeModeEvents stage.newMode .edgeTriggered)).work_resume ev rest p
    refine work_move (c := 1) ?_
    rw [Worker.work_event hpc]
    omega
  | delOk hpc | delFail hpc =>
    refine work_move (c := 1) ?_
    rw [Worker.work_event hpc]
    simp only [Worker.work, WorkerPc.work, Stage.work]
    omega
  | @close w ev deleted rest hpc =>
    have hset := work_move (s := s.closeFd ev.fd) (w := w)
      (x := { (s.closeFd ev.fd).workers w with pc := .event ev .dec rest }) (c := 1) (by
        rw [Worker.work_event ((closeFd_pc ev.fd w).trans hpc)]
        simp only [Worker.work, WorkerPc.work, Stage.work]
        omega)
    exact hset.trans (s.work_closeFd ev.fd)
  | @dec w ev rest hpc =>
    have hd := WorkerPc.work_dispatch (s.workers w).registered.card (s.workers w).nRet rest
    refine work_move (c := 1) ?_
    rw [Worker.work_event hpc]
    simp only [Worker.work, Worker.decrement, Stage.work]
    omega

/-- Nobody is further from the end of an event than its first call is. -/
def WithinEvent (s : Server n) : Prop :=
  ∀ w ev stage rest, (s.workers w).pc = .event ev stage rest → stage.work ≤ Stage.eventWork

theorem WithinEvent.step (h : WithinEvent s) {a : Action n} (ht : Transition maxclients s a t) :
    WithinEvent t := by
  let P (x : Worker) : Prop :=
    ∀ ev stage rest, x.pc = .event ev stage rest → stage.work ≤ Stage.eventWork
  have hdispatch : ∀ {nRet events ev stage rest},
      WorkerPc.dispatch nRet events = .event ev stage rest → stage.work ≤ Stage.eventWork := by
    intro nRet events ev stage rest he
    rcases WorkerPc.dispatch_cases nRet events with hd | ⟨ev', stage', rest', hd, -, hb⟩
    · simp [hd] at he
    · rw [hd] at he
      obtain ⟨-, rfl, -⟩ := WorkerPc.event.inj he
      exact Stage.work_beginEvent hb
  have hresume : ∀ (x : Worker) (ev : Event) (rest : List Event) (p : Pass),
      Stage.rest p.stage ≤ Stage.eventWork → P (x.resume ev rest p) := by
    intro x ev rest p hp ev' stage' rest' he
    unfold Worker.resume at he
    cases hs : p.stage with
    | none =>
      simp only [hs] at he
      exact hdispatch he
    | some stage =>
      simp only [hs] at he
      obtain ⟨-, rfl, -⟩ := WorkerPc.event.inj he
      rwa [hs] at hp
  have hclose (fd : Fd) : ∀ w, P ((s.closeFd fd).workers w) :=
    forall_closeFd (P := P) h fun _ hw => hw
  cases ht with
  | shutdown | listenerTest | listenFails | accept | read | addFail => exact h
  | @refuse sockfd hl => exact hclose sockfd
  | @addOk _ w | @increment _ w =>
    exact forall_setWorker (P := P) h (fun ev stage rest hpc => h w ev stage rest hpc)
  | workerTest =>
    refine forall_setWorker (P := P) h fun ev stage rest hpc => ?_
    simp only at hpc
    split at hpc <;> cases hpc
  | wait => exact forall_setWorker (P := P) h fun ev stage rest hpc => hdispatch hpc
  | @quiet w act ev stage rest p hpc hq hp | @modOk w ev stage rest p hpc hp =>
    have hadv := Stage.rest_advance hp
    have hstage := h w ev stage rest hpc
    exact forall_setWorker (P := P) h (hresume _ ev rest p (by omega))
  | delOk | delFail =>
    refine forall_setWorker (P := P) h fun ev stage rest hpc => ?_
    obtain ⟨-, rfl, -⟩ := WorkerPc.event.inj hpc
    decide
  | close =>
    refine forall_setWorker (P := P) (hclose _) fun ev stage rest hpc => ?_
    obtain ⟨-, rfl, -⟩ := WorkerPc.event.inj hpc
    decide
  | dec => exact forall_setWorker (P := P) h fun ev stage rest hpc => hdispatch hpc

theorem WithinEvent.of_reaches {tr : List (Action n)}
    (h : (serverMachine n maxclients).Reaches tr s) : WithinEvent s := by
  refine h.invariant (fun hs w ev stage rest hpc => ?_) fun hs hstep => hs.step (step_cases hstep)
  obtain ⟨-, -, -, hw | hw⟩ := hs.worker w <;> rw [hw] at hpc <;> cases hpc

theorem listener_work_le (l : ListenerPc) : l.work n ≤ 3 * n + 5 + Stage.eventWork := by
  cases l with
  | assigning sockfd pc =>
    cases pc with
    | compare i target activeConns left right =>
      simp only [ListenerPc.work, AssignPc.work]
      split_ifs <;> omega
    | _ =>
      simp only [ListenerPc.work, AssignPc.work]
      omega
  | _ =>
    simp only [ListenerPc.work]
    omega

/-- Apart from the event in progress, a batch is no longer than the interest list. -/
theorem worker_work_le {tr : List (Action n)} (h : (serverMachine n maxclients).Reaches tr s)
    (w : Fin n) :
    (s.workers w).work ≤ ((s.workers w).registered.card + 1) * Stage.eventWork + 2 := by
  have hmul : ((s.workers w).registered.card + 1) * Stage.eventWork =
      (s.workers w).registered.card * Stage.eventWork + Stage.eventWork := by
    rw [Nat.add_mul, Nat.one_mul]
  rw [hmul]
  cases hpc : (s.workers w).pc with
  | event ev stage rest =>
    have ho := (Owned.of_reaches h).worker w
    have hstage := WithinEvent.of_reaches h w ev stage rest hpc
    have hnd := ho.nodup
    rw [hpc] at hnd
    have hsub : (rest.map Event.fd).toFinset ⊆ (s.workers w).registered := by
      intro fd hfd
      obtain ⟨e, he, rfl⟩ := List.mem_map.mp (List.mem_toFinset.mp hfd)
      exact (ho.behind hpc he).1
    have hcard := Finset.card_le_card hsub
    rw [List.toFinset_card_of_nodup hnd.of_cons, List.length_map] at hcard
    have hlen := Nat.mul_le_mul_right Stage.eventWork hcard
    rw [Worker.work_event hpc]
    omega
  | wait =>
    rw [Worker.work, hpc]
    simp only [WorkerPc.work]
    omega
  | _ =>
    rw [Worker.work, hpc]
    simp only [WorkerPc.work]
    omega

theorem work_le (hm : 0 ≤ maxclients) {tr : List (Action n)}
    (h : (serverMachine n maxclients).Reaches tr s) :
    (s.work : ℤ) ≤ 5 * n + 5 + (maxclients + n + 1) * Stage.eventWork := by
  have hlistener := listener_work_le (n := n) s.listener
  have hworkers : ∑ w, (s.workers w).work ≤
      ∑ w, (((s.workers w).registered.card + 1) * Stage.eventWork + 2) :=
    Finset.sum_le_sum fun w _ => worker_work_le h w
  have hsum : ((∑ w, (((s.workers w).registered.card + 1) * Stage.eventWork + 2) : ℕ) : ℤ) =
      (s.registeredTotal + n) * Stage.eventWork + 2 * n := by
    push_cast
    simp only [Finset.sum_add_distrib, ← Finset.sum_mul, Finset.sum_const, Finset.card_univ,
      Fintype.card_fin, registeredTotal]
    simp [mul_comm]
  have htotal := registeredTotal_le_maxclients hm h
  have hmul : (s.registeredTotal + n) * (Stage.eventWork : ℤ) ≤
      (maxclients + n) * Stage.eventWork := by gcongr
  have hwork : (s.work : ℤ) = s.listener.work n + (∑ w, (s.workers w).work : ℕ) := by
    simp [work]
  have hexpand : (maxclients + n + 1) * (Stage.eventWork : ℤ) =
      (maxclients + n) * Stage.eventWork + Stage.eventWork := by ring
  omega

end Server
end EpollThreads.Dispatch
