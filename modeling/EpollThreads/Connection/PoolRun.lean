import EpollThreads.Connection.PoolEndpoint

/-!
# Runs of the pool as runs of its connections

`Shows` relates the pool to the endpoint of one connection once `AssignTask` has
registered it with a worker. Each step of the pool is answered by the endpoint
with the step that is seen of it and with the turns of its events, if any. What
the other threads do does not show.
-/

namespace EpollThreads.Connection

open Foundations Events Dispatch

variable {n : ℕ} {maxclients : ℤ} {s t : Pool n} {u : Server n} {f : Conn → Socket}
  {a : Action n} {c : Conn} {fd : Fd} {w : Fin n} {e e' : Endpoint}

theorem position_of_without {x : Worker} (h : x.Without c) : position c x.pc = .idle :=
  position_of_notMem h.2

namespace Pool

/-- The endpoint is what one connection is to the pool: worker `w` has it, or has closed it. -/
structure Shows (s : Pool n) (c : Conn) (fd : Fd) (w : Fin n) (e : Endpoint) : Prop where
  accepted : c < s.server.accepted
  file : ∀ fd', s.server.files fd' = some c → fd' = fd ∧ e.opened = true
  listener : ∀ fd', s.server.listener.Holds fd' → s.server.files fd' ≠ some c
  others : ∀ w', w' ≠ w → (s.server.workers w').Without c
  socket : e.socket = s.socket c
  mask : e.mask = (s.server.workers w).mask fd c
  pc : e.pc = position c (s.server.workers w).pc
  nRet : ∀ events stage, e.pc = .handling events stage → e.nRet = (s.server.workers w).nRet

theorem answer_handle (ho : s.server.Owned) {act : HandlerAct} {ev : Event} {stage : Stage}
    {rest : List Event} {p : Pass} {nRet : ℤ}
    (hpc : (s.server.workers w).pc = .event ev stage rest)
    (hp : stage.advance .taskThread ev.fd ev.events nRet act = some p)
    (h : s.answer (.handle w act) = some f) :
    (stage = .dec ∧ act = .dec ∧ f = s.socket) ∨
      (s.server.files ev.fd = some ev.conn ∧ ∃ e,
        ((s.socket ev.conn).under ((s.server.workers w).mask ev.fd ev.conn)).effect stage act =
          some e ∧ f = s.setSocket ev.conn e) := by
  by_cases hdec : stage = .dec
  · subst hdec
    obtain rfl : act = .dec := by
      cases act <;> simp [Stage.advance] at hp ⊢
    refine Or.inl ⟨rfl, rfl, ?_⟩
    cases hfile : s.server.files ev.fd with
    | none =>
      simp only [answer, hpc, hfile, Option.some.injEq] at h
      exact h.symm
    | some c' =>
      simp only [answer, hpc, hfile, Endpoint.effect, Option.map_some, Option.some.injEq] at h
      rw [← h]
      exact Function.update_eq_self _ _
  · have hfile := ho.file_of_event hpc hdec
    simp only [answer, hpc, hfile] at h
    obtain ⟨e, he, rfl⟩ := Option.map_eq_some_iff.mp h
    exact Or.inr ⟨hfile, e, he, rfl⟩

theorem answer_other (ho : s.server.Owned) (hstep : s.server.step maxclients a = some u)
    (h : s.answer a = some f)
    (hadd : a = .assign (.add true) → ∀ sockfd w, s.server.listener = .assigning sockfd (.add w) →
      s.server.files sockfd ≠ some c)
    (hserves : ∀ w ∈ a.serves, (s.server.workers w).Without c) :
    f c = s.socket c ∧ s.seen c (.server a) = none := by
  cases a with
  | shutdown | listenerTest | listenFails | accept | workerTest =>
    exact ⟨congrFun (Option.some.inj h).symm c, rfl⟩
  | assign op =>
    cases Server.step_cases hstep with
    | read | refuse | addFail | increment => exact ⟨congrFun (Option.some.inj h).symm c, rfl⟩
    | @addOk sockfd w' c' hl hc he hr =>
      have hne : c' ≠ c := fun heq => hadd rfl sockfd w' hl (heq ▸ hc)
      simp only [answer, hl, hc, Option.map_some, Option.some.injEq] at h
      refine ⟨?_, by simp [seen, hl, hc, hne]⟩
      rw [← h]
      exact Function.update_of_ne (Ne.symm hne) _ _
  | wait w' batch =>
    cases Server.step_cases hstep with
    | wait hpc hnd hreg =>
      have hno : c ∉ batch.map fun p => ((s.server.workers w').interest p.1).conn := by
        intro hmem
        obtain ⟨p, hp, hconn⟩ := List.mem_map.mp hmem
        exact (hserves w' rfl).1 p.1 (hreg p hp) hconn
      simp only [answer, Option.ite_none_right_eq_some, Option.some.injEq] at h
      obtain ⟨-, rfl⟩ := h
      refine ⟨if_neg ?_, if_neg hno⟩
      rwa [List.map_map]
  | handle w' act =>
    obtain ⟨ev, stage, rest, p, -, hpc, hp, -, -⟩ := Server.handleStep_eq_some hstep
    have hne : ev.conn ≠ c := (hserves w' rfl).2 ev (by rw [hpc]; exact List.mem_cons_self)
    refine ⟨?_, by simp [seen, hpc, hne]⟩
    rcases answer_handle ho hpc hp h with ⟨-, -, rfl⟩ | ⟨-, e, -, rfl⟩
    · rfl
    · exact Function.update_of_ne (Ne.symm hne) _ _

theorem worker_other (fd : Fd) (ho : s.server.Owned)
    (hstep : s.server.step maxclients a = some u)
    (hlistener : ∀ fd', s.server.listener.Holds fd' → s.server.files fd' ≠ some c)
    (hothers : ∀ w', w' ≠ w → (s.server.workers w').Without c) (hserves : w ∉ a.serves) :
    (u.workers w).mask fd c = (s.server.workers w).mask fd c ∧
      position c (u.workers w).pc = position c (s.server.workers w).pc ∧
      (u.workers w).nRet = (s.server.workers w).nRet := by
  have hself (x : Worker) (w' : Fin n) (hx : x.mask fd c = (s.server.workers w').mask fd c ∧
      position c x.pc = position c (s.server.workers w').pc ∧
        x.nRet = (s.server.workers w').nRet) :
      (Function.update s.server.workers w' x w).mask fd c = (s.server.workers w).mask fd c ∧
        position c (Function.update s.server.workers w' x w).pc =
          position c (s.server.workers w).pc ∧
        (Function.update s.server.workers w' x w).nRet = (s.server.workers w).nRet := by
    by_cases hw : w = w'
    · subst hw
      simpa using hx
    · simp [hw]
  have hclose (fd' : Fd) (hfile : s.server.files fd' ≠ some c) :
      ((s.server.closeFd fd').workers w).mask fd c = (s.server.workers w).mask fd c ∧
        position c ((s.server.closeFd fd').workers w).pc = position c (s.server.workers w).pc ∧
        ((s.server.closeFd fd').workers w).nRet = (s.server.workers w).nRet :=
    ⟨Server.mask_closeFd ho hfile w, by simp, by simp⟩
  cases a with
  | shutdown | listenerTest | listenFails | accept =>
    cases Server.step_cases hstep
    exact ⟨rfl, rfl, rfl⟩
  | workerTest w' =>
    cases Server.step_cases hstep with
    | workerTest hpc =>
      refine hself _ w' ⟨Worker.mask_congr rfl rfl, ?_, rfl⟩
      rw [hpc]
      dsimp only
      split <;> rfl
  | assign op =>
    cases Server.step_cases hstep with
    | read | addFail => exact ⟨rfl, rfl, rfl⟩
    | @refuse sockfd hl =>
      exact hclose sockfd (hlistener sockfd (by rw [hl]; rfl))
    | @addOk sockfd w' c' hl hc he hr =>
      have hne : c' ≠ c := fun heq => hlistener sockfd (by rw [hl]; rfl) (heq ▸ hc)
      exact hself _ w' ⟨Server.mask_insert_ne hne hr, rfl, rfl⟩
    | @increment sockfd w' hl => exact hself _ w' ⟨Worker.mask_congr rfl rfl, rfl, rfl⟩
  | wait w' batch =>
    have hw : w ≠ w' := fun he => hserves (he ▸ rfl)
    cases Server.step_cases hstep with
    | wait => simp [hw]
  | handle w' act =>
    have hw : w ≠ w' := fun he => hserves (he ▸ rfl)
    cases Server.step_cases hstep with
    | quiet | modOk | delOk | delFail | dec => simp [hw]
    | @close _ ev deleted rest hpc =>
      have hne : ev.conn ≠ c :=
        (hothers w' hw.symm).2 ev (by rw [hpc]; exact List.mem_cons_self)
      have hfile : s.server.files ev.fd ≠ some c := by
        rw [ho.file_of_event hpc (by simp)]
        exact fun heq => hne (Option.some.inj heq)
      simpa [hw] using hclose ev.fd hfile

namespace Shows

/-- The parts of `Shows` that hold after every step of the server. -/
theorem serve (h : s.Shows c fd w e) (hstep : s.server.step maxclients a = some u)
    (hopened : ∀ fd', u.files fd' = some c → e'.opened = true) (hsocket : e'.socket = f c)
    (hmask : e'.mask = (u.workers w).mask fd c) (hpc : e'.pc = position c (u.workers w).pc)
    (hnRet : ∀ events stage, e'.pc = .handling events stage → e'.nRet = (u.workers w).nRet) :
    Shows ⟨u, f⟩ c fd w e' := by
  have ht := Server.step_cases hstep
  have hadd (sockfd : Fd) (target : ℕ)
      (hl : s.server.listener = .assigning sockfd (.add target)) :
      s.server.files sockfd ≠ some c :=
    h.listener sockfd (by rw [hl]; rfl)
  refine ⟨h.accepted.trans_le (Server.accepted_le ht), fun fd' hfd' => ?_, fun fd' hl hfd' => ?_,
    fun w' hw => Server.without_step ht (fun _ => hadd) (h.others w' hw),
    hsocket, hmask, hpc, hnRet⟩
  · exact ⟨(h.file fd' (Server.files_of_lt ht h.accepted hfd')).1, hopened fd' hfd'⟩
  · have hold := Server.files_of_lt ht h.accepted hfd'
    rcases Server.listener_holds ht hl with hl | hnone
    · exact h.listener fd' hl hold
    · simp [hnone] at hold

theorem other (h : s.Shows c fd w e) (ho : s.server.Owned)
    (hstep : s.server.step maxclients a = some u) (hans : s.answer a = some f)
    (hserves : w ∉ a.serves) :
    Shows ⟨u, f⟩ c fd w e ∧ s.seen c (.server a) = none := by
  have hadd (sockfd : Fd) (target : ℕ)
      (hl : s.server.listener = .assigning sockfd (.add target)) :
      s.server.files sockfd ≠ some c :=
    h.listener sockfd (by rw [hl]; rfl)
  have hwithout : ∀ w' ∈ a.serves, (s.server.workers w').Without c := fun w' hw' =>
    h.others w' fun he => hserves (he ▸ hw')
  obtain ⟨hsocket, hseen⟩ := answer_other ho hstep hans (fun _ => hadd) hwithout
  obtain ⟨hmask, hpc, hnRet⟩ := worker_other fd ho hstep h.listener h.others hserves
  refine ⟨h.serve hstep (fun fd' hfd' => ?_) (h.socket.trans hsocket.symm)
    (h.mask.trans hmask.symm) (h.pc.trans hpc.symm) fun events stage hs => ?_, hseen⟩
  · exact (h.file fd' (Server.files_of_lt (Server.step_cases hstep) h.accepted hfd')).2
  · rw [hnRet]
    exact h.nRet events stage hs

theorem registered (h : s.Shows c fd w e) (ho : s.server.Owned) {w' : Fin n} {fd' : Fd}
    (hreg : fd' ∈ (s.server.workers w').registered)
    (hconn : ((s.server.workers w').interest fd').conn = c) :
    w' = w ∧ fd' = fd ∧ e.opened = true ∧
      e.mask = some ((s.server.workers w').interest fd').events := by
  have hw : w' = w := by
    by_contra hne
    exact (h.others w' hne).1 fd' hreg hconn
  subst hw
  have hfile : s.server.files fd' = some c := by
    rw [(ho.worker w').registered_open fd' hreg, hconn]
  obtain ⟨hfd, hopen⟩ := h.file fd' hfile
  refine ⟨rfl, hfd, hopen, ?_⟩
  rw [h.mask, ← hfd, ← hconn]
  exact Worker.mask_of_mem hreg

/-- The entry of the connection is taken off the ready list, if it is in the batch. -/
theorem report (h : s.Shows c fd w e) (ho : s.server.Owned) {batch : List (Fd × BitVec 32)}
    (hpc : (s.server.workers w).pc = .wait)
    (hreg : ∀ p ∈ batch, p.1 ∈ (s.server.workers w).registered)
    (hconns : (((s.server.workers w).report batch).map Event.conn).Nodup)
    (hreports : ∀ p ∈ batch, s.Reports (s.server.workers w) p) :
    ∃ tr e', (endpointMachine .taskThread fd).Run e tr e' ∧
      visible tr = (s.seen c (.server (.wait w batch))).toList ∧
      e'.socket = s.unlisted (s.server.workers w) (batch.map Prod.fst) c ∧
      e'.mask = e.mask ∧ e'.opened = e.opened ∧
      e'.pc = queued c ((s.server.workers w).report batch) := by
  have hidle : e.pc = .idle := by
    rw [h.pc, hpc]
    rfl
  by_cases hmem : c ∈ batch.map fun p => ((s.server.workers w).interest p.1).conn
  · obtain ⟨p, hp, hconn⟩ := List.mem_map.mp hmem
    obtain ⟨hpending, hevents, hne⟩ := hreports p hp
    obtain ⟨-, -, -, hmask⟩ := h.registered ho (hreg p hp) hconn
    have hready : e.ready &&& ((s.server.workers w).interest p.1).events = p.2 := by
      rw [hevents, polled, hconn, ← h.socket]
      rfl
    have hpend : e.pending = true := by
      rw [hconn, ← h.socket] at hpending
      exact hpending
    have hstep : e.step .taskThread fd .wait =
        some { e with pending := false, pc := .reported p.2 } := by
      simpa [Endpoint.step, hidle, hpend, hmask, hready] using hne
    have hrun : (endpointMachine .taskThread fd).Run e [.wait] _ := .single hstep
    refine ⟨_, _, hrun, ?_, ?_, rfl, rfl, ?_⟩
    · simp only [seen, if_pos hmem]
      rfl
    · rw [unlisted, if_pos (by rwa [List.map_map]), ← h.socket]
      rfl
    · have hev : (⟨p.1, p.2, ((s.server.workers w).interest p.1).conn⟩ : Event) ∈
          (s.server.workers w).report batch := List.mem_map_of_mem hp
      rw [← hconn]
      exact (queued_of_mem hconns hev).symm
  · refine ⟨[], e, .nil e, ?_, ?_, rfl, rfl, ?_⟩
    · simp only [seen, if_neg hmem]
      rfl
    · rw [unlisted, if_neg (by rwa [List.map_map]), h.socket]
    · rw [hidle, queued_of_notMem]
      rintro ev hev rfl
      obtain ⟨p, hp, rfl⟩ := List.mem_map.mp hev
      exact hmem (List.mem_map_of_mem hp)

/-- `epoll_wait` of the worker that has the connection. -/
theorem wait (h : s.Shows c fd w e) (ho : s.server.Owned) {batch : List (Fd × BitVec 32)}
    (hstep : s.server.step maxclients (.wait w batch) = some u)
    (hans : s.answer (.wait w batch) = some f) :
    ∃ tr e', (endpointMachine .taskThread fd).Run e tr e' ∧
      visible tr = (s.seen c (.server (.wait w batch))).toList ∧ Shows ⟨u, f⟩ c fd w e' := by
  have hwait := hstep
  simp only [Server.step, Server.waitStep, Option.ite_none_right_eq_some,
    Option.some.injEq] at hwait
  obtain ⟨⟨hpc, hnd, hreg, -⟩, hu⟩ := hwait
  have hworker : u.workers w = { s.server.workers w with
      pc := .dispatch (s.server.workers w).nRet ((s.server.workers w).report batch) } := by
    rw [← hu]
    simp
  simp only [answer, Option.ite_none_right_eq_some, Option.some.injEq] at hans
  obtain ⟨hreports, rfl⟩ := hans
  have hconns : (((s.server.workers w).report batch).map Event.conn).Nodup := by
    refine (ho.worker w).nodup_conn ho.files_inj ?_ fun ev hev => ?_
    · simpa [Worker.report, Function.comp_def] using hnd
    · obtain ⟨p, hp, rfl⟩ := List.mem_map.mp hev
      exact ⟨hreg p hp, rfl⟩
  -- First the report, then the events of the batch that have nothing to do.
  obtain ⟨tr₁, e₁, hrun₁, hvis₁, hsocket₁, hmask₁, hopened₁, hpc₁⟩ :=
    h.report ho hpc hreg hconns hreports
  obtain ⟨tr₂, e₂, hrun₂, hvis₂, hsocket₂, hmask₂, hopened₂, hpc₂, hnRet₂⟩ :=
    Endpoint.run_dispatch .taskThread fd (s.server.workers w).nRet hconns hpc₁
  refine ⟨tr₁ ++ tr₂, e₂, hrun₁.append hrun₂, ?_, h.serve hstep (fun fd' hfd' => ?_)
    (hsocket₂.trans hsocket₁) ?_ ?_ ?_⟩
  · rw [visible_append, hvis₁, hvis₂, List.append_nil]
  · rw [hopened₂, hopened₁]
    exact (h.file fd' (Server.files_of_lt (Server.step_cases hstep) h.accepted hfd')).2
  · rw [hmask₂, hmask₁, h.mask, hworker]
    exact (Worker.mask_congr rfl rfl).symm
  · rw [hpc₂, hworker]
  · rw [hworker]
    exact hnRet₂

/-- The handler that a worker runs for the connection is where the endpoint is. -/
theorem handling (h : s.Shows c fd w e) {w' : Fin n} {ev : Event} {stage : Stage}
    {rest : List Event} (hpc : (s.server.workers w').pc = .event ev stage rest)
    (hc : ev.conn = c) : e.pc = .handling ev.events stage := by
  have hw : w' = w := by
    by_contra hne
    exact (h.others w' hne).2 ev (by rw [hpc]; exact List.mem_cons_self) hc
  subst hw
  rw [h.pc, hpc]
  exact if_pos hc

theorem behind_ne (h : s.Shows c fd w e) (hw : e.Wf) (ho : s.server.Owned) {ev ev' : Event}
    {stage : Stage} {rest : List Event} (hpc : (s.server.workers w).pc = .event ev stage rest)
    (hc : ev.conn = c) (hev : ev' ∈ rest) : ev'.conn ≠ c := by
  intro heq
  obtain ⟨hreg, hconn, hne⟩ := (ho.worker w).behind hpc hev
  obtain ⟨-, hfd, hopen, -⟩ := h.registered ho hreg (hconn.trans heq)
  by_cases hdec : stage = .dec
  · simp [(hw.stage _ _ (h.handling hpc hc)).2 hdec] at hopen
  · have hfile := ho.file_of_event hpc hdec
    rw [hc] at hfile
    exact hne (hfd.trans (h.file ev.fd hfile).1.symm)

theorem handle_effect (h : s.Shows c fd w e) (ho : s.server.Owned) {act : HandlerAct}
    {ev : Event} {stage : Stage} {rest : List Event} {p : Pass} {u' : Server n}
    (hpc : (s.server.workers w).pc = .event ev stage rest) (hc : ev.conn = c)
    (hstep : s.server.step maxclients (.handle w act) = some u)
    (hp : stage.advance .taskThread ev.fd ev.events (s.server.workers w).nRet act = some p)
    (hu : s.server.handleEffect w ev.fd stage act = some u')
    (hu' : u = u'.setWorker w ((u'.workers w).resume ev rest p))
    (hans : s.answer (.handle w act) = some f) :
    ∃ e', e.effect stage act = some e' ∧ e'.socket = f c ∧
      e'.mask = (u'.workers w).mask fd c ∧
      (∀ fd', u.files fd' = some c → e'.opened = true) ∧
      stage.advance .taskThread fd ev.events e.nRet act = some p := by
  have hnRet := h.nRet _ _ (h.handling hpc hc)
  have hfiles (fd' : Fd) (hfd' : u.files fd' = some c) : s.server.files fd' = some c :=
    Server.files_of_lt (Server.step_cases hstep) h.accepted hfd'
  rcases answer_handle ho hpc hp hans with ⟨rfl, rfl, rfl⟩ | ⟨hfile, e₁, he₁, rfl⟩
  · refine ⟨e, rfl, h.socket, ?_, fun fd' hfd' => (h.file fd' (hfiles fd' hfd')).2, ?_⟩
    · rw [← Option.some.inj hu, h.mask, Server.setWorker_workers, Function.update_self]
      exact (Worker.mask_congr rfl rfl).symm
    · rw [hnRet]
      exact hp
  · rw [hc] at hfile
    obtain ⟨hfd, hopen⟩ := h.file ev.fd hfile
    rw [hc, hfd, ← h.socket, ← h.mask] at he₁
    obtain ⟨e₂, he₂, hsocket, hmask, hopened⟩ := Endpoint.effect_socket he₁
    refine ⟨e₂, he₂, ?_, ?_, fun fd' hfd' => ?_, ?_⟩
    · rw [hsocket, setSocket, hc, Function.update_self]
    · rw [hmask, h.mask, ← hfd]
      exact (Server.mask_handleEffect_self ho hu hfile).symm
    · by_cases hclose : act = .close
      · subst hclose
        have hgone : u.files ev.fd = none := by
          rw [hu', ← Option.some.inj hu, Server.closeFd_eq hfile]
          simp
        have hsame : fd' = ev.fd := (h.file fd' (hfiles fd' hfd')).1.trans hfd.symm
        simp [hsame, hgone] at hfd'
      · rw [hopened hclose]
        exact hopen
    · rw [hnRet, ← hfd]
      exact hp

theorem handle_self (h : s.Shows c fd w e) (hw : e.Wf) (ho : s.server.Owned) {act : HandlerAct}
    {ev : Event} {stage : Stage} {rest : List Event}
    (hcur : (s.server.workers w).pc = .event ev stage rest) (hc : ev.conn = c)
    (hstep : s.server.step maxclients (.handle w act) = some u)
    (hans : s.answer (.handle w act) = some f) :
    ∃ e', e.step .taskThread fd (.handle act) = some e' ∧ Shows ⟨u, f⟩ c fd w e' := by
  obtain ⟨ev', stage', rest', p, u', hpc, hp, hu, hu'⟩ := Server.handleStep_eq_some hstep
  obtain ⟨rfl, rfl, rfl⟩ := WorkerPc.event.inj (hpc.symm.trans hcur)
  obtain ⟨e₂, heffect, hsocket, hmask, hopened, hadvance⟩ :=
    h.handle_effect ho hpc hc hstep hp hu hu' hans
  have hstep' : e.step .taskThread fd (.handle act) = some (e₂.resume ev'.events p) := by
    simp [Endpoint.step, Endpoint.handle, h.handling hpc hc, hadvance, heffect]
  have hworker : u.workers w = (u'.workers w).resume ev' rest' p := by simp [hu']
  refine ⟨_, hstep', h.serve hstep hopened hsocket ?_ ?_ fun _ _ _ => ?_⟩
  · rw [hworker, Endpoint.resume_mask, hmask]
    exact (Worker.mask_congr rfl rfl).symm
  · rw [hworker]
    unfold Endpoint.resume Worker.resume
    cases p.stage with
    | none =>
      exact (position_of_notMem fun ev hev =>
        h.behind_ne hw ho hpc hc ((WorkerPc.dispatch_spec _ _).1.subset hev)).symm
    | some stage'' => exact (if_pos hc).symm
  · rw [hworker]
    rfl

theorem handle_ne (h : s.Shows c fd w e) (ho : s.server.Owned) {act : HandlerAct}
    {ev : Event} {stage : Stage} {rest : List Event}
    (hcur : (s.server.workers w).pc = .event ev stage rest) (hc : ev.conn ≠ c)
    (hstep : s.server.step maxclients (.handle w act) = some u)
    (hans : s.answer (.handle w act) = some f) :
    ∃ tr e', (endpointMachine .taskThread fd).Run e tr e' ∧ visible tr = [] ∧
      Shows ⟨u, f⟩ c fd w e' := by
  obtain ⟨ev', stage', rest', p, u', hpc, hp, hu, hu'⟩ := Server.handleStep_eq_some hstep
  obtain ⟨rfl, rfl, rfl⟩ := WorkerPc.event.inj (hpc.symm.trans hcur)
  have hqueued : e.pc = queued c rest' := by
    rw [h.pc, hpc]
    exact if_neg hc
  have hworker : u.workers w = (u'.workers w).resume ev' rest' p := by simp [hu']
  have hopened (fd' : Fd) (hfd' : u.files fd' = some c) : e.opened = true :=
    (h.file fd' (Server.files_of_lt (Server.step_cases hstep) h.accepted hfd')).2
  obtain ⟨hsocket, hmask⟩ : f c = s.socket c ∧ (u.workers w).mask fd c = e.mask := by
    have hresume : (u.workers w).mask fd c = (u'.workers w).mask fd c := by
      rw [hworker]
      exact Worker.mask_congr rfl rfl
    rw [hresume, h.mask]
    rcases answer_handle ho hpc hp hans with ⟨rfl, rfl, rfl⟩ | ⟨hfile, e₁, -, rfl⟩
    · refine ⟨rfl, ?_⟩
      rw [← Option.some.inj hu, Server.setWorker_workers, Function.update_self]
      exact Worker.mask_congr rfl rfl
    · refine ⟨Function.update_of_ne hc.symm _ _, Server.mask_handleEffect_ne ho hu ?_⟩
      rw [hfile]
      exact fun heq => hc (Option.some.inj heq)
  cases hstage : p.stage with
  | some stage'' =>
    refine ⟨[], e, .nil e, rfl, h.serve hstep hopened (h.socket.trans hsocket.symm) hmask.symm ?_
      fun events stage hs => ?_⟩
    · rw [hworker, hqueued]
      simp [Worker.resume, hstage, position, hc]
    · rw [hqueued] at hs
      exact absurd hs queued_ne_handling
  | none =>
    have hnd : (rest'.map Event.fd).Nodup := by
      have hnd := (ho.worker w).nodup
      rw [hpc] at hnd
      exact hnd.of_cons
    have hconns : (rest'.map Event.conn).Nodup :=
      (ho.worker w).nodup_conn ho.files_inj hnd fun ev hev =>
        ⟨((ho.worker w).behind hpc hev).1, ((ho.worker w).behind hpc hev).2.1⟩
    obtain ⟨tr, e', hrun, hvis, hsocket', hmask', hopened', hpc', hnRet'⟩ :=
      Endpoint.run_dispatch .taskThread fd p.nRet hconns hqueued
    refine ⟨tr, e', hrun, hvis, h.serve hstep (fun fd' hfd' => hopened'.trans (hopened fd' hfd'))
      (hsocket'.trans (h.socket.trans hsocket.symm)) (hmask'.trans hmask.symm) ?_ ?_⟩
    · rw [hworker, hpc']
      simp [Worker.resume, hstage]
    · rw [hworker]
      exact hnRet'

theorem server_step (h : s.Shows c fd w e) (hw : e.Wf) (ho : s.server.Owned)
    (hstep : s.server.step maxclients a = some u) (hans : s.answer a = some f) :
    ∃ tr e', (endpointMachine .taskThread fd).Run e tr e' ∧
      visible tr = (s.seen c (.server a)).toList ∧ Shows ⟨u, f⟩ c fd w e' := by
  by_cases hserves : w ∈ a.serves
  · cases a with
    | wait w' batch =>
      obtain rfl : w' = w := Option.some.inj hserves
      exact h.wait ho hstep hans
    | handle w' act =>
      obtain rfl : w' = w := Option.some.inj hserves
      obtain ⟨ev, stage, rest, -, -, hpc, -, -, -⟩ := Server.handleStep_eq_some hstep
      by_cases hc : ev.conn = c
      · obtain ⟨e', hstep', h'⟩ := h.handle_self hw ho hpc hc hstep hans
        have hrun : (endpointMachine .taskThread fd).Run e [.handle act] e' := .single hstep'
        refine ⟨_, e', hrun, ?_, h'⟩
        simp only [seen, hpc, if_pos hc]
        rfl
      · obtain ⟨tr, e', hrun, hvis, h'⟩ := h.handle_ne ho hpc hc hstep hans
        refine ⟨tr, e', hrun, ?_, h'⟩
        simp only [seen, hpc, if_neg hc]
        exact hvis
    | _ => cases hserves
  · obtain ⟨h', hseen⟩ := h.other ho hstep hans hserves
    exact ⟨[], e, .nil e, by rw [hseen]; rfl, h'⟩

theorem outside (h : s.Shows c fd w e) (hsame : e.SameWorker e') (hsocket : e'.socket = f c) :
    Shows { s with socket := f } c fd w e' := by
  obtain ⟨hmask, hopened, hnRet, hpc⟩ := hsame
  refine ⟨h.accepted, fun fd' hfd' => ?_, h.listener, h.others, hsocket, hmask.trans h.mask,
    hpc.trans h.pc, fun events stage hs => hnRet.trans (h.nRet events stage (hpc ▸ hs))⟩
  obtain ⟨hfd, hopen⟩ := h.file fd' hfd'
  exact ⟨hfd, hopened.trans hopen⟩

theorem elsewhere (h : s.Shows c fd w e) {a : PoolAct n} (hf : f c = s.socket c)
    (hseen : s.seen c a = none) :
    ∃ tr e', (endpointMachine .taskThread fd).Run e tr e' ∧ visible tr = (s.seen c a).toList ∧
      Shows { s with socket := f } c fd w e' :=
  ⟨[], e, .nil e, by rw [hseen]; rfl, h.outside ⟨rfl, rfl, rfl, rfl⟩ (h.socket.trans hf.symm)⟩

theorem touched (h : s.Shows c fd w e) {a : PoolAct n} {b : EndpointAct} {fd' : Fd}
    {e₁ : Endpoint} (hout : b.outside = true) (hseen : s.seen c a = some b)
    (he₁ : ((s.socket c).under e.mask).step .taskThread fd' b = some e₁) :
    ∃ tr e', (endpointMachine .taskThread fd).Run e tr e' ∧ visible tr = (s.seen c a).toList ∧
      Shows { s with socket := s.setSocket c e₁ } c fd w e' := by
  rw [← h.socket] at he₁
  obtain ⟨e₂, he₂, hsocket, hsame⟩ := Endpoint.outside_socket .taskThread fd hout he₁
  have hrun : (endpointMachine .taskThread fd).Run e [b] e₂ := .single he₂
  refine ⟨_, e₂, hrun, ?_, h.outside hsame ?_⟩
  · rw [hseen]
    exact visible_outside hout
  · rw [hsocket, setSocket, Function.update_self]

theorem skip (h : s.Shows c fd w e) (ho : s.server.Owned) {w' : Fin n} {fd' : Fd}
    (hpc : (s.server.workers w').pc = .wait) (hreg : fd' ∈ (s.server.workers w').registered)
    (hpending : (s.socket ((s.server.workers w').interest fd').conn).pending = true)
    (hpolled : s.polled (s.server.workers w') fd' = 0) :
    ∃ tr e', (endpointMachine .taskThread fd).Run e tr e' ∧
      visible tr = (s.seen c (.skip w' fd')).toList ∧
      Shows { s with socket := s.unlisted (s.server.workers w') [fd'] } c fd w e' := by
  by_cases hconn : ((s.server.workers w').interest fd').conn = c
  · obtain ⟨rfl, -, -, hmask⟩ := h.registered ho hreg hconn
    have hidle : e.pc = .idle := by
      rw [h.pc, hpc]
      rfl
    have hpend : e.pending = true := by
      rw [hconn, ← h.socket] at hpending
      exact hpending
    have hready : e.ready &&& ((s.server.workers w').interest fd').events = 0 := by
      rw [polled, hconn, ← h.socket] at hpolled
      exact hpolled
    have hwait : e.step .taskThread fd .wait = some { e with pending := false } := by
      simp [Endpoint.step, hidle, hpend, hmask, hready]
    have hrun : (endpointMachine .taskThread fd).Run e [.wait] _ := .single hwait
    refine ⟨_, _, hrun, ?_, h.outside ⟨rfl, rfl, rfl, rfl⟩ ?_⟩
    · simp only [seen, if_pos hconn]
      rfl
    · rw [unlisted, if_pos (by simp [hconn]), ← h.socket]
      rfl
  · exact h.elsewhere (if_neg (by simpa using Ne.symm hconn)) (if_neg hconn)

theorem step (h : s.Shows c fd w e) (hw : e.Wf) (ho : s.server.Owned) {a : PoolAct n}
    (ht : Transition maxclients s a t) :
    ∃ tr e', (endpointMachine .taskThread fd).Run e tr e' ∧ visible tr = (s.seen c a).toList ∧
      t.Shows c fd w e' := by
  cases ht with
  | server hu hf => exact h.server_step hw ho hu hf
  | skip hpc hreg hpending hpolled => exact h.skip ho hpc hreg hpending hpolled
  | @peer w' fd' a e₁ hreg hout he₁ =>
    by_cases hconn : ((s.server.workers w').interest fd').conn = c
    · obtain ⟨-, -, -, hmask⟩ := h.registered ho hreg hconn
      rw [hconn, ← hmask] at he₁
      rw [hconn]
      exact h.touched hout (if_pos hconn) he₁
    · exact h.elsewhere (Function.update_of_ne (Ne.symm hconn) _ _) (if_neg hconn)
  | @away c' a e₁ hno hout he₁ =>
    by_cases hconn : c' = c
    · subst hconn
      have hmask : e.mask = none := by
        rw [h.mask]
        exact if_neg fun hm => hno w fd hm.1 hm.2
      rw [← hmask] at he₁
      exact h.touched hout (if_pos rfl) he₁
    · exact h.elsewhere (Function.update_of_ne (Ne.symm hconn) _ _) (if_neg hconn)

end Shows

/-- No worker has the connection. -/
def Unserved (s : Pool n) (c : Conn) : Prop := ∀ w, (s.server.workers w).Without c

theorem shows_of_add (h : s.Unserved c) (ho : s.server.Owned) {target : ℕ}
    (hl : s.server.listener = .assigning fd (.add target)) (hc : s.server.files fd = some c)
    (hstep : s.server.step maxclients (.assign (.add true)) = some u)
    (hans : s.answer (.assign (.add true)) = some f) :
    ∃ w e', ((s.socket c).under none).step .taskThread fd .add = some e' ∧
      Shows ⟨u, f⟩ c fd w e' := by
  cases Server.step_cases hstep with
  | @addOk sockfd w c' hl' hc' he hr =>
    obtain ⟨rfl, -⟩ := ListenerPc.assigning.inj (hl'.symm.trans hl)
    obtain rfl : c' = c := Option.some.inj (hc'.symm.trans hc)
    simp only [answer, hl, hc, Option.map_some, Option.some.injEq] at hans
    refine ⟨w, ((s.socket c').under none).install (addEvents .write .edgeTriggered), rfl,
      ho.files_lt sockfd c' hc, fun fd' hfd' => ⟨?_, rfl⟩, fun fd' hfd' => ?_, fun w' hw => ?_,
      ?_, ?_, ?_, fun events stage hs => ?_⟩
    · exact ho.files_inj fd' sockfd c' hfd' hc
    · exact hfd'.elim
    · simpa [hw] using h w'
    · rw [← hans]
      exact (Function.update_self c' _ s.socket).symm
    · simpa using Worker.mask_insert_self.symm
    · have hidle : position c' (s.server.workers w).pc = .idle := position_of_without (h w)
      simpa [Worker.insert, Socket.under] using hidle.symm
    · cases hs

theorem under_step {a : EndpointAct} {e₁ : Endpoint} (hout : a.outside = true)
    (he₁ : ((s.socket c).under none).step .taskThread 0 a = some e₁) (fd : Fd) :
    ((s.socket c).under none).step .taskThread fd a = some (e₁.socket.under none) := by
  have hunder : (((s.socket c).under none).socket.under ((s.socket c).under none).mask).step
      .taskThread 0 a = some e₁ := he₁
  obtain ⟨e₂, he₂, hsocket, hmask, hopened, hnRet, hpc⟩ :=
    Endpoint.outside_socket .taskThread fd hout hunder
  have heq : e₁.socket.under none = e₂ := by
    rw [← hsocket]
    cases e₂
    simp only [Endpoint.socket, Socket.under] at hmask hopened hnRet hpc ⊢
    simp [hmask, hopened, hnRet, hpc]
  rwa [heq]

/-- Until then the endpoint is the socket. -/
theorem Unserved.step (h : s.Unserved c) (ho : s.server.Owned) {a : PoolAct n}
    (ht : Transition maxclients s a t) :
    (t.Unserved c ∧ ∀ fd, ∃ tr, (endpointMachine .taskThread fd).Run ((s.socket c).under none) tr
      ((t.socket c).under none) ∧ visible tr = (s.seen c a).toList) ∨
    ∃ fd w tr e', s.server.files fd = some c ∧
      (endpointMachine .taskThread fd).Run ((s.socket c).under none) tr e' ∧
      visible tr = (s.seen c a).toList ∧ t.Shows c fd w e' := by
  have hstay {f : Conn → Socket} (hf : f c = s.socket c) (hseen : s.seen c a = none) (fd : Fd) :
      ∃ tr, (endpointMachine .taskThread fd).Run ((s.socket c).under none) tr
        ((f c).under none) ∧ visible tr = (s.seen c a).toList :=
    ⟨[], by rw [hf]; exact .nil _, by rw [hseen]; rfl⟩
  cases ht with
  | @server a u f hu hf =>
    by_cases hadd : a = .assign (.add true) ∧ ∃ sockfd target,
        s.server.listener = .assigning sockfd (.add target) ∧ s.server.files sockfd = some c
    · obtain ⟨rfl, sockfd, target, hl, hc⟩ := hadd
      obtain ⟨w, e', hstep', h'⟩ := shows_of_add h ho hl hc hu hf
      have hrun : (endpointMachine .taskThread sockfd).Run ((s.socket c).under none) [.add] e' :=
        .single hstep'
      refine Or.inr ⟨sockfd, w, _, e', hc, hrun, ?_, h'⟩
      simp only [seen, hl, if_pos hc]
      rfl
    · have hno (ha : a = .assign (.add true)) (sockfd : Fd) (target : ℕ)
          (hl : s.server.listener = .assigning sockfd (.add target)) :
          s.server.files sockfd ≠ some c :=
        fun hc => hadd ⟨ha, sockfd, target, hl, hc⟩
      obtain ⟨hsocket, hseen⟩ := answer_other ho hu hf hno fun w _ => h w
      exact Or.inl ⟨fun w => Server.without_step (Server.step_cases hu) hno (h w),
        hstay hsocket hseen⟩
  | @skip w' fd' hpc hreg =>
    have hconn := (h w').1 fd' hreg
    exact Or.inl ⟨h, hstay (if_neg (by simpa using Ne.symm hconn)) (if_neg hconn)⟩
  | @peer w' fd' a e₁ hreg =>
    have hconn := (h w').1 fd' hreg
    exact Or.inl ⟨h, hstay (Function.update_of_ne (Ne.symm hconn) _ _) (if_neg hconn)⟩
  | @away c' a e₁ hno hout he₁ =>
    by_cases hconn : c' = c
    · subst hconn
      refine Or.inl ⟨h, fun fd => ?_⟩
      have hrun : (endpointMachine .taskThread fd).Run ((s.socket c').under none) [a] _ :=
        .single (under_step hout he₁ fd)
      refine ⟨[a], ?_, ?_⟩
      · simpa only [setSocket, Function.update_self] using hrun
      · simp only [seen, if_true]
        exact visible_outside hout
    · exact Or.inl ⟨h, hstay (Function.update_of_ne (Ne.symm hconn) _ _) (if_neg hconn)⟩

theorem seen_eq_handle {a : PoolAct n} {act : HandlerAct}
    (ht : Transition maxclients s a t) (h : s.seen c a = some (.handle act)) :
    ∃ w ev stage rest, a = .server (.handle w act) ∧
      (s.server.workers w).pc = .event ev stage rest ∧ ev.conn = c := by
  have hout {b : EndpointAct} (hb : b.outside = true) : b ≠ .handle act := by
    rintro rfl
    cases hb
  unfold seen at h
  split at h
  · split at h
    · split at h <;> cases h
    · cases h
  · split at h <;> cases h
  · rename_i w act'
    split at h
    · rename_i ev stage rest hpc
      rw [Option.ite_none_right_eq_some] at h
      obtain ⟨hc, h⟩ := h
      obtain rfl := EndpointAct.handle.inj (Option.some.inj h)
      exact ⟨w, ev, stage, rest, rfl, hpc, hc⟩
    · cases h
  · cases h
  · split at h <;> cases h
  · rw [Option.ite_none_right_eq_some] at h
    cases ht with
    | peer hreg hb => exact (hout hb (Option.some.inj h.2)).elim
  · rw [Option.ite_none_right_eq_some] at h
    cases ht with
    | away hno hb => exact (hout hb (Option.some.inj h.2)).elim

theorem outputs_eq_none {a : PoolAct n} (h : ∀ act, s.seen c a ≠ some (.handle act)) :
    s.outputs c a = none := by
  unfold outputs
  split
  · rename_i w res errno
    split
    · rename_i ev str rest hpc
      split
      · rename_i hc
        exact (h (.send res errno) (by simp [seen, hpc, hc])).elim
      · rfl
    · rfl
  · rfl

theorem record_outputs {a : PoolAct n} {tr : List EndpointAct}
    (ht : Transition maxclients s a t)
    (hpos : ∀ w ev stage rest, (s.server.workers w).pc = .event ev stage rest → ev.conn = c →
      e.pc = .handling ev.events stage)
    (hrun : (endpointMachine .taskThread fd).Run e tr e')
    (hvis : visible tr = (s.seen c a).toList) :
    (endpointMachine .taskThread fd).record Endpoint.outputs e tr = (s.outputs c a).toList := by
  by_cases hseen : ∃ act, s.seen c a = some (.handle act)
  · obtain ⟨act, hseen⟩ := hseen
    obtain ⟨w, ev, stage, rest, rfl, hpc, hc⟩ := seen_eq_handle ht hseen
    have hpce := hpos w ev stage rest hpc hc
    rw [Endpoint.record_outputs_handle hpce (by rw [hvis, hseen]; rfl) hrun]
    cases act with
    | send res errno => cases stage <;> simp [outputs, Endpoint.outputs, hpc, hpce, hc]
    | _ => rfl
  · rw [not_exists] at hseen
    rw [outputs_eq_none hseen, Endpoint.record_outputs_eq_nil]
    · rfl
    · intro act hact
      rw [hvis, Option.mem_toList] at hact
      exact hseen act hact

theorem server_of_transition {a : PoolAct n} (ht : Transition maxclients s a t) :
    (serverMachine n maxclients).Run s.server a.call.toList t.server := by
  cases ht with
  | server hu => exact .single hu
  | skip | peer | away => exact .nil _

/-- What the threads do in a run of the pool is a run of the server. -/
theorem server_run {s₀ : Pool n} {tr : List (PoolAct n)}
    (hrun : (poolMachine n maxclients).Run s₀ tr s) :
    (serverMachine n maxclients).Run s₀.server (tr.filterMap PoolAct.call) s.server := by
  induction hrun with
  | nil => exact .nil _
  | @snoc _ _ tr a _ hstep ih =>
    have hlast : [a].filterMap PoolAct.call = a.call.toList := by
      cases hc : a.call <;> simp [hc]
    rw [List.filterMap_append, hlast]
    exact ih.append (server_of_transition (step_cases hstep))

theorem server_reaches {s₀ : Pool n} {tr : List (PoolAct n)} (h₀ : s₀.Start)
    (hrun : (poolMachine n maxclients).Run s₀ tr s) :
    (serverMachine n maxclients).Reaches (tr.filterMap PoolAct.call) s.server :=
  ⟨_, h₀.server, server_run hrun⟩

theorem start_under {s₀ : Pool n} (h₀ : s₀.Start) (c : Conn) : ((s₀.socket c).under none).Start :=
  ⟨rfl, rfl, h₀.socket c, rfl⟩

/-- A run of the endpoint, and what it shows of a run of the pool. -/
structure Traces (maxclients : ℤ) (s₀ : Pool n) (tr : List (PoolAct n)) (c : Conn) (fd : Fd)
    (tr' : List EndpointAct) (e : Endpoint) : Prop where
  run : (endpointMachine .taskThread fd).Run ((s₀.socket c).under none) tr' e
  seen : visible tr' = (poolMachine n maxclients).record (seen c) s₀ tr
  outputs : (endpointMachine .taskThread fd).record Endpoint.outputs ((s₀.socket c).under none)
    tr' = (poolMachine n maxclients).record (outputs c) s₀ tr

theorem Traces.snoc {s₀ : Pool n} {tr : List (PoolAct n)} {a : PoolAct n}
    {tr₁ tr₂ : List EndpointAct} (h : Traces maxclients s₀ tr c fd tr₁ e)
    (hrun : (poolMachine n maxclients).Run s₀ tr s) (hstep : s.step maxclients a = some t)
    (hpos : ∀ w ev stage rest, (s.server.workers w).pc = .event ev stage rest → ev.conn = c →
      e.pc = .handling ev.events stage)
    (hrun₂ : (endpointMachine .taskThread fd).Run e tr₂ e')
    (hvis₂ : visible tr₂ = (s.seen c a).toList) :
    Traces maxclients s₀ (tr ++ [a]) c fd (tr₁ ++ tr₂) e' where
  run := h.run.append hrun₂
  seen := by rw [visible_append, h.seen, hvis₂, hrun.record_snoc]
  outputs := by
    rw [h.run.record_append, h.outputs, record_outputs (step_cases hstep) hpos hrun₂ hvis₂,
      hrun.record_snoc]

theorem Unserved.conn_ne (h : s.Unserved c) {w : Fin n} {ev : Event} {stage : Stage}
    {rest : List Event} (hpc : (s.server.workers w).pc = .event ev stage rest) : ev.conn ≠ c :=
  (h w).2 ev (by rw [hpc]; exact List.mem_cons_self)

/-- In every run of the server, what is seen of a connection is, but for the turns of its events,
a run of its endpoint: from the socket before its `accept` to what the pool has of it. -/
theorem endpoint_run {s₀ : Pool n} {tr : List (PoolAct n)} (h₀ : s₀.Start)
    (hrun : (poolMachine n maxclients).Run s₀ tr s) (c : Conn) :
    (s.Unserved c ∧
      ∀ fd, ∃ tr', Traces maxclients s₀ tr c fd tr' ((s.socket c).under none)) ∨
    ∃ fd w tr' e, (Server.acceptedFds (tr.filterMap PoolAct.call))[c]? = some fd ∧
      Traces maxclients s₀ tr c fd tr' e ∧ s.Shows c fd w e := by
  induction hrun with
  | nil =>
    refine Or.inl ⟨fun w => ?_, fun fd => ⟨[], .nil _, rfl, rfl⟩⟩
    obtain ⟨-, hreg, -, hpc⟩ := h₀.server.worker w
    refine ⟨fun fd hfd => by simp [hreg] at hfd, fun ev hev => ?_⟩
    rcases hpc with hpc | hpc <;> simp [hpc, WorkerPc.batch] at hev
  | snoc hrun hstep ih =>
    have hserver := server_reaches h₀ hrun
    have ho : Server.Owned _ := .of_reaches hserver
    rw [List.filterMap_append]
    rcases ih with ⟨hun, hrest⟩ | ⟨fd, w, tr₁, e, hfd, htr₁, h⟩
    · rcases hun.step ho (step_cases hstep) with
        ⟨hun', hnext⟩ | ⟨fd, w, tr₂, e, hc, hrun₂, hvis₂, h⟩
      · refine Or.inl ⟨hun', fun fd => ?_⟩
        obtain ⟨tr₁, htr₁⟩ := hrest fd
        obtain ⟨tr₂, hrun₂, hvis₂⟩ := hnext fd
        refine ⟨tr₁ ++ tr₂, htr₁.snoc hrun hstep ?_ hrun₂ hvis₂⟩
        exact fun w ev stage rest hpc hc => (hun.conn_ne hpc hc).elim
      · obtain ⟨tr₁, htr₁⟩ := hrest fd
        have hfd := (Server.acceptedFds_of_reaches hserver).2 fd c hc
        refine Or.inr ⟨fd, w, tr₁ ++ tr₂, e, Server.acceptedFds_append_of_some hfd,
          htr₁.snoc hrun hstep ?_ hrun₂ hvis₂, h⟩
        exact fun w ev stage rest hpc hc => (hun.conn_ne hpc hc).elim
    · have hreach : (endpointMachine .taskThread fd).Reaches tr₁ e :=
        ⟨_, start_under h₀ c, htr₁.run⟩
      obtain ⟨tr₂, e', hrun₂, hvis₂, h'⟩ := h.step (.of_reaches hreach) ho (step_cases hstep)
      refine Or.inr ⟨fd, w, tr₁ ++ tr₂, e', Server.acceptedFds_append_of_some hfd,
        htr₁.snoc hrun hstep ?_ hrun₂ hvis₂, h'⟩
      exact fun w ev stage rest hpc hc => h.handling hpc hc

end Pool
end EpollThreads.Connection
