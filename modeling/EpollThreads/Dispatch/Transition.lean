import EpollThreads.Dispatch.Server

/-!
# What a step of the server can do

`Transition` lists every successful step with its guard and its whole effect.
Invariants are proved by cases on it and never unfold the step function.
-/

namespace EpollThreads.Dispatch

open Events

namespace Server

variable {n : ℕ} {maxclients : ℤ} {s t : Server n}

@[simp] theorem setWorker_workers (w : Fin n) (x : Worker) :
    (s.setWorker w x).workers = Function.update s.workers w x := rfl

@[simp] theorem setWorker_files (w : Fin n) (x : Worker) : (s.setWorker w x).files = s.files := rfl

@[simp] theorem setWorker_listener (w : Fin n) (x : Worker) :
    (s.setWorker w x).listener = s.listener := rfl

@[simp] theorem setWorker_setWorker (w : Fin n) (x y : Worker) :
    (s.setWorker w x).setWorker w y = s.setWorker w y := by
  simp [setWorker]

@[simp] theorem closeFd_accepted (fd : Fd) : (s.closeFd fd).accepted = s.accepted := by
  unfold closeFd
  split <;> rfl

@[simp] theorem closeFd_listener (fd : Fd) : (s.closeFd fd).listener = s.listener := by
  unfold closeFd
  split <;> rfl

@[simp] theorem closeFd_nRet (fd : Fd) (w : Fin n) :
    ((s.closeFd fd).workers w).nRet = (s.workers w).nRet := by
  unfold closeFd
  split <;> rfl

@[simp] theorem closeFd_activeConns (fd : Fd) (w : Fin n) :
    ((s.closeFd fd).workers w).activeConns = (s.workers w).activeConns := by
  unfold closeFd
  split <;> rfl

@[simp] theorem closeFd_pc (fd : Fd) (w : Fin n) :
    ((s.closeFd fd).workers w).pc = (s.workers w).pc := by
  unfold closeFd
  split <;> rfl

/-- What holds of a worker, across a move of some worker. -/
theorem worker_setWorker {P : Worker → Prop} {w w' : Fin n} {x : Worker}
    (hx : P (s.workers w') → P x) (h : P (s.workers w)) : P ((s.setWorker w' x).workers w) := by
  by_cases hw : w = w'
  · subst hw; simpa using hx h
  · simpa [hw] using h

theorem of_worker_setWorker {P : Worker → Prop} {w w' : Fin n} {x : Worker}
    (h : P ((s.setWorker w' x).workers w)) (hx : P x → P (s.workers w')) : P (s.workers w) := by
  by_contra hno
  exact worker_setWorker (P := fun y => ¬P y) (mt hx) hno h

theorem forall_setWorker {P : Worker → Prop} (h : ∀ w, P (s.workers w)) {w : Fin n} {x : Worker}
    (hx : P x) (w' : Fin n) : P ((s.setWorker w x).workers w') :=
  worker_setWorker (fun _ => hx) (h w')

theorem forall_closeFd {P : Worker → Prop} (h : ∀ w, P (s.workers w)) {fd : Fd}
    (hremove : ∀ w, P (s.workers w) → P ((s.workers w).remove fd)) (w : Fin n) :
    P ((s.closeFd fd).workers w) := by
  unfold closeFd
  split
  · exact h w
  · exact hremove w (h w)

theorem of_worker_closeFd {P : Worker → Prop} {w : Fin n} {fd : Fd}
    (h : P ((s.closeFd fd).workers w)) (hx : P ((s.workers w).remove fd) → P (s.workers w)) :
    P (s.workers w) := by
  unfold closeFd at h
  split at h
  · exact h
  · exact hx h

inductive Transition (maxclients : ℤ) (s : Server n) : Action n → Server n → Prop
  | shutdown : Transition maxclients s .shutdown { s with shutdown := true }
  | listenerTest (h : s.listener = .test) :
      Transition maxclients s .listenerTest
        { s with listener := if s.shutdown then .returned else .listen }
  | listenFails (h : s.listener = .listen) :
      Transition maxclients s .listenFails { s with listener := .test }
  | accept {fd : Fd} (h : s.listener = .listen) (hfd : s.files fd = none) :
      Transition maxclients s (.accept fd)
        { s with
          listener := .assigning fd (.begin n maxclients)
          files := Function.update s.files fd (some s.accepted)
          accepted := s.accepted + 1 }
  | read {sockfd : Fd} {pc pc' : AssignPc} {r : CounterRead} {w : Fin n}
      (h : s.listener = .assigning sockfd pc) (hw : pc.reads r = some (w : ℕ))
      (hpc : pc.afterRead n maxclients r (s.workers w).activeConns = some pc') :
      Transition maxclients s (.assign (.read r)) { s with listener := .assigning sockfd pc' }
  | refuse {sockfd : Fd} (h : s.listener = .assigning sockfd .close) :
      Transition maxclients s (.assign .close) { s.closeFd sockfd with listener := .test }
  | addOk {sockfd : Fd} {w : Fin n} {c : Conn}
      (h : s.listener = .assigning sockfd (.add w)) (hc : s.files sockfd = some c)
      (he : (s.workers w).epfd ≠ -1) (hr : sockfd ∉ (s.workers w).registered) :
      Transition maxclients s (.assign (.add true))
        { s.setWorker w ((s.workers w).insert sockfd ⟨c, addEvents .write .edgeTriggered⟩) with
          listener := .assigning sockfd (.increment w) }
  | addFail {sockfd : Fd} {w : Fin n} (h : s.listener = .assigning sockfd (.add w)) :
      Transition maxclients s (.assign (.add false)) { s with listener := .test }
  | increment {sockfd : Fd} {w : Fin n} (h : s.listener = .assigning sockfd (.increment w)) :
      Transition maxclients s (.assign .increment)
        { s.setWorker w (s.workers w).increment with listener := .test }
  | workerTest {w : Fin n} (h : (s.workers w).pc = .test) :
      Transition maxclients s (.workerTest w)
        (s.setWorker w { s.workers w with pc := if s.shutdown then .returned else .wait })
  | wait {w : Fin n} {batch : List (Fd × BitVec 32)} (h : (s.workers w).pc = .wait)
      (hnd : (batch.map Prod.fst).Nodup) (hreg : ∀ p ∈ batch, p.1 ∈ (s.workers w).registered) :
      Transition maxclients s (.wait w batch)
        (s.setWorker w { s.workers w with
          pc := .dispatch (s.workers w).nRet ((s.workers w).report batch) })
  | quiet {w : Fin n} {act : HandlerAct} {ev : Event} {stage : Stage} {rest : List Event}
      {p : Pass} (h : (s.workers w).pc = .event ev stage rest) (hq : Quiet act)
      (hp : stage.advance .taskThread ev.fd ev.events (s.workers w).nRet act = some p) :
      Transition maxclients s (.handle w act) (s.setWorker w ((s.workers w).resume ev rest p))
  | modOk {w : Fin n} {ev : Event} {stage : Stage} {rest : List Event} {p : Pass}
      (h : (s.workers w).pc = .event ev stage rest)
      (hp : stage.advance .taskThread ev.fd ev.events (s.workers w).nRet (.mod true) = some p)
      (hreg : ev.fd ∈ (s.workers w).registered) :
      Transition maxclients s (.handle w (.mod true))
        (s.setWorker w (((s.workers w).changeMask ev.fd
          (changeModeEvents stage.newMode .edgeTriggered)).resume ev rest p))
  | delOk {w : Fin n} {ev : Event} {rest : List Event}
      (h : (s.workers w).pc = .event ev .del rest) (hreg : ev.fd ∈ (s.workers w).registered) :
      Transition maxclients s (.handle w (.del true))
        (s.setWorker w { (s.workers w).remove ev.fd with pc := .event ev (.close true) rest })
  | delFail {w : Fin n} {ev : Event} {rest : List Event}
      (h : (s.workers w).pc = .event ev .del rest) :
      Transition maxclients s (.handle w (.del false))
        (s.setWorker w { s.workers w with pc := .event ev (.close false) rest })
  | close {w : Fin n} {ev : Event} {deleted : Bool} {rest : List Event}
      (h : (s.workers w).pc = .event ev (.close deleted) rest) :
      Transition maxclients s (.handle w .close)
        ((s.closeFd ev.fd).setWorker w
          { (s.closeFd ev.fd).workers w with pc := .event ev .dec rest })
  | dec {w : Fin n} {ev : Event} {rest : List Event}
      (h : (s.workers w).pc = .event ev .dec rest) :
      Transition maxclients s (.handle w .dec)
        (s.setWorker w { (s.workers w).decrement with
          pc := .dispatch (s.workers w).nRet rest })

theorem counter_eq_some {i : ℕ} {v : ℤ} (h : s.counter i = some v) :
    ∃ w : Fin n, i = w ∧ v = (s.workers w).activeConns := by
  unfold counter at h
  split at h
  · rename_i hi
    exact ⟨⟨i, hi⟩, rfl, (Option.some.inj h).symm⟩
  · simp at h

/-- A counter read never ends the call. -/
theorem listenerAfter_read {sockfd : Fd} {pc pc' : AssignPc} {r : CounterRead} {v : ℤ}
    (h : pc.afterRead n maxclients r v = some pc') :
    listenerAfter sockfd pc' = .assigning sockfd pc' := by
  have hc := (AssignPc.choosing_afterRead h).2
  cases pc' with
  | returned => exact hc.elim
  | _ => rfl

theorem assignStep_cases {op : AssignOp} (h : s.assignStep maxclients op = some t) :
    Transition maxclients s (.assign op) t := by
  unfold assignStep at h
  split at h
  · rename_i sockfd pc hl
    obtain ⟨pc', hpc, h⟩ := Option.bind_eq_some_iff.mp h
    obtain ⟨u, hu, rfl⟩ := Option.map_eq_some_iff.mp h
    cases op with
    | read r =>
      obtain ⟨i, v, hi, hv, hpc⟩ := AssignPc.step_read hpc
      obtain ⟨w, rfl, rfl⟩ := counter_eq_some hv
      have he : s = u := by cases pc <;> exact Option.some.inj hu
      subst he
      rw [listenerAfter_read hpc]
      exact .read hl hi hpc
    | close =>
      obtain ⟨rfl, rfl⟩ := AssignPc.step_close hpc
      exact Option.some.inj hu ▸ .refuse hl
    | add ok =>
      obtain ⟨target, ht, rfl, rfl⟩ := AssignPc.step_add hpc
      cases ok with
      | false => exact Option.some.inj hu ▸ .addFail (w := ⟨target, ht⟩) hl
      | true =>
        simp only [assignEffect, dif_pos ht] at hu
        split at hu
        · rename_i c hc
          simp only [Option.ite_none_left_eq_some, not_or, Option.some.injEq] at hu
          obtain ⟨⟨he, hr⟩, rfl⟩ := hu
          exact .addOk (w := ⟨target, ht⟩) hl hc he hr
        · simp at hu
    | increment =>
      obtain ⟨target, ht, rfl, rfl⟩ := AssignPc.step_increment hpc
      simp only [assignEffect, dif_pos ht] at hu
      exact Option.some.inj hu ▸ .increment (w := ⟨target, ht⟩) hl
  · simp at h

theorem handleStep_cases {w : Fin n} {act : HandlerAct} (h : s.handleStep w act = some t) :
    Transition maxclients s (.handle w act) t := by
  unfold handleStep at h
  split at h
  · rename_i ev stage rest hpc
    obtain ⟨p, hp, h⟩ := Option.bind_eq_some_iff.mp h
    obtain ⟨u, hu, rfl⟩ := Option.map_eq_some_iff.mp h
    match act with
    | .recv .. | .format _ | .send .. | .mod false | .error =>
      simp only [handleEffect, Option.some.injEq] at hu
      exact hu ▸ .quiet hpc trivial hp
    | .mod true =>
      simp only [handleEffect, Option.ite_none_right_eq_some, Option.some.injEq] at hu
      obtain ⟨hreg, rfl⟩ := hu
      have ht : Transition maxclients s (.handle w (.mod true)) _ := .modOk hpc hp hreg
      simpa using ht
    | .del ok =>
      cases stage <;> simp only [Stage.advance, reduceCtorEq, Option.some.injEq] at hp
      subst hp
      cases ok with
      | false =>
        simp only [handleEffect, Option.some.injEq] at hu
        exact hu ▸ .delFail hpc
      | true =>
        simp only [handleEffect, Option.ite_none_right_eq_some, Option.some.injEq] at hu
        obtain ⟨hreg, rfl⟩ := hu
        have ht : Transition maxclients s (.handle w (.del true)) _ := .delOk hpc hreg
        simpa [Worker.resume, Worker.remove] using ht
    | .close =>
      cases stage <;> simp only [Stage.advance, reduceCtorEq, Option.some.injEq] at hp
      subst hp
      simp only [handleEffect, Option.some.injEq] at hu
      subst hu
      have hr : ((s.closeFd ev.fd).workers w).resume ev rest ⟨some .dec, (s.workers w).nRet⟩ =
          { (s.closeFd ev.fd).workers w with pc := .event ev .dec rest } := by
        simp [Worker.resume]
      have ht : Transition maxclients s (.handle w .close) _ := .close hpc
      simpa [hr] using ht
    | .dec =>
      cases stage <;> simp only [Stage.advance, reduceCtorEq, Option.some.injEq] at hp
      subst hp
      simp only [handleEffect, Option.some.injEq] at hu
      subst hu
      have ht : Transition maxclients s (.handle w .dec) _ := .dec hpc
      simpa [Worker.resume, Worker.decrement] using ht
  · simp at h

/-- The inversion of the step function. -/
theorem step_cases {a : Action n} (h : s.step maxclients a = some t) :
    Transition maxclients s a t := by
  cases a with
  | shutdown => exact Option.some.inj h ▸ .shutdown
  | listenerTest =>
    simp only [step, Option.ite_none_right_eq_some, Option.some.injEq] at h
    obtain ⟨hl, rfl⟩ := h
    exact .listenerTest hl
  | listenFails =>
    simp only [step, Option.ite_none_right_eq_some, Option.some.injEq] at h
    obtain ⟨hl, rfl⟩ := h
    exact .listenFails hl
  | accept fd =>
    simp only [step, Option.ite_none_right_eq_some, Option.some.injEq] at h
    obtain ⟨⟨hl, hfd⟩, rfl⟩ := h
    exact .accept hl hfd
  | assign op => exact assignStep_cases h
  | workerTest w =>
    simp only [step, Option.ite_none_right_eq_some, Option.some.injEq] at h
    obtain ⟨hpc, rfl⟩ := h
    exact .workerTest hpc
  | wait w batch =>
    simp only [step, waitStep, Option.ite_none_right_eq_some, Option.some.injEq] at h
    obtain ⟨⟨hpc, hnd, hreg, -⟩, rfl⟩ := h
    exact .wait hpc hnd hreg
  | handle w act => exact handleStep_cases h

/-- Where a thread is changes only by its own steps. -/
theorem listener_of_transition {a : Action n} (ht : Transition maxclients s a t) :
    actor a = some .listener ∨ t.listener = s.listener := by
  cases ht with
  | close => exact .inr (by simp)
  | shutdown | workerTest | wait | quiet | modOk | delOk | delFail | dec => exact .inr rfl
  | _ => exact .inl rfl

theorem pc_of_transition {a : Action n} (ht : Transition maxclients s a t) (w : Fin n) :
    actor a = some (.worker w) ∨ (t.workers w).pc = (s.workers w).pc := by
  have other {w' : Fin n} {u : Server n} {x : Worker}
      (hu : (u.workers w).pc = (s.workers w).pc) :
      some (Thread.worker w') = some (.worker w) ∨
        ((u.setWorker w' x).workers w).pc = (s.workers w).pc := by
    by_cases hw : w = w'
    · exact .inl (by rw [hw])
    · exact .inr (by simp [hw, hu])
  cases ht with
  | shutdown | listenerTest | listenFails | accept | read | addFail => exact .inr rfl
  | refuse => exact .inr (by simp)
  | @addOk sockfd w' c | @increment sockfd w' =>
    right
    by_cases hw : w = w'
    · subst hw; simp [Worker.insert, Worker.increment]
    · simp [hw]
  | close => exact other (Server.closeFd_pc _ w)
  | _ => exact other rfl

end Server
end EpollThreads.Dispatch
