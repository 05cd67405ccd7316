import EpollThreads.Dispatch.Direction
import EpollThreads.Dispatch.Delivery

/-!
# The dropped result of a mode change

`iRead` and `iWrite` return 0 whatever `i_epoll_change_mode` returned. A change
that failed therefore leaves the connection in the direction whose edge the
handler has used up, unless the event also carries an error or a hang-up, for
which the event loop calls `iError` and then `iClose`. On the way there each
of them logs, and with the log mutex lost the `close` is never reached.
-/

namespace EpollThreads.Dispatch

open Foundations Events

/-- The handlers that returned 0 on connection `c`, in order. -/
def callsOn (c : Conn) (l : List (Conn × Handler)) : List Handler :=
  (l.filter fun p => p.1 = c).map Prod.snd

@[simp] theorem callsOn_self (c : Conn) (l : List (Conn × Handler)) (h : Handler) :
    callsOn c (l ++ [(c, h)]) = callsOn c l ++ [h] := by
  simp [callsOn]

theorem callsOn_other {c c' : Conn} (hne : c' ≠ c) (l : List (Conn × Handler)) (h : Handler) :
    callsOn c (l ++ [(c', h)]) = callsOn c l := by
  simp [callsOn, hne]

/-- Whose turn it is after these calls. -/
def due (calls : List Handler) : Handler := (calls.getLast?.map Handler.other).getD .iWrite

@[simp] theorem due_concat (calls : List Handler) (h : Handler) : due (calls ++ [h]) = h.other := by
  simp [due]

theorem due_of_getLast? {calls : List Handler} {h : Handler} (hl : calls.getLast? = some h) :
    due calls = h.other := by
  simp [due, hl]

/-- Conditions for which the event loop calls `iError`, after whatever else it calls. -/
def Fatal (events : BitVec 32) : Prop := has events (EPOLLHUP ||| EPOLLERR ||| EPOLLRDHUP) = true

instance (events : BitVec 32) : Decidable (Fatal events) := inferInstanceAs (Decidable (_ = _))

/-- The loop body cannot be left without the `close` of `iClose`. -/
def Doomed (events : BitVec 32) : Stage → Prop
  | .iError | .del | .close _ => True
  | .dec => False
  | _ => Fatal events

theorem afterWrite_of_fatal {events : BitVec 32} (h : Fatal events) (nRet : ℤ) :
    afterWrite events nRet = some .iError := if_pos h

theorem afterWrite_of_not_fatal {events : BitVec 32} (h : ¬Fatal events) :
    afterWrite events 0 = none := by
  have hf : ¬has events (EPOLLHUP ||| EPOLLERR ||| EPOLLRDHUP) = true := h
  simp [afterWrite, hf, afterError]

theorem doomed_afterWrite {events : BitVec 32} (h : Fatal events) (nRet : ℤ) :
    ∃ stage ∈ afterWrite events nRet, Doomed events stage :=
  ⟨.iError, afterWrite_of_fatal h nRet, trivial⟩

theorem doomed_afterRead {events : BitVec 32} (h : Fatal events) (nRet : ℤ) :
    ∃ stage ∈ afterRead events nRet, Doomed events stage := by
  unfold afterRead
  split
  · exact ⟨.format, rfl, h⟩
  · exact doomed_afterWrite h nRet

theorem doomed_advance {sockfd : ℕ} {events : BitVec 32} {nRet : ℤ} {stage : Stage}
    {act : HandlerAct} {p : Pass}
    (h : stage.advance .taskThread sockfd events nRet act = some p) (hd : Doomed events stage)
    (hact : act ≠ .close) : ∃ stage' ∈ p.stage, Doomed events stage' := by
  have hnext := Stage.next_of_advance h
  generalize p.stage = next at hnext
  cases hnext with
  | receiving | received | formatted | sending | sent => exact ⟨_, rfl, hd⟩
  | unreceived | changedToWrite => exact doomed_afterRead hd _
  | unsent | changedToRead => exact doomed_afterWrite hd _
  | failed | deleted => exact ⟨_, rfl, trivial⟩
  | closed => exact (hact rfl).elim
  | decremented => exact hd.elim

/-- After a mode change without an error condition the loop body has only `iWrite` left. -/
theorem mod_not_fatal {sockfd : ℕ} {events : BitVec 32} {nRet : ℤ} {stage : Stage} {ok : Bool}
    {p : Pass} (h : stage.advance .taskThread sockfd events nRet (.mod ok) = some p)
    (hf : ¬Fatal events) : p.stage = none ∨ p.stage = some .format := by
  have hnext := Stage.next_of_advance h
  generalize p.stage = next at hnext
  cases hnext with
  | changedToWrite =>
    unfold afterRead
    split
    · exact Or.inr rfl
    · exact Or.inl (afterWrite_of_not_fatal hf)
  | changedToRead => exact Or.inl (afterWrite_of_not_fatal hf)

/-- The worker cannot go on to its next event before it has closed connection `c`. -/
def Worker.Closing (x : Worker) (c : Conn) : Prop :=
  ∃ ev stage rest, x.pc = .event ev stage rest ∧ Doomed ev.events stage ∧ ev.conn = c

theorem Worker.Closing.resume {x y : Worker} {c : Conn} {act : HandlerAct} {ev : Event}
    {stage : Stage} {rest : List Event} {p : Pass} (h : x.Closing c)
    (hpc : x.pc = .event ev stage rest)
    (hp : stage.advance .taskThread ev.fd ev.events x.nRet act = some p) (hact : act ≠ .close) :
    (y.resume ev rest p).Closing c := by
  obtain ⟨ev', stage', rest', hpc', hd, rfl⟩ := h
  obtain ⟨rfl, rfl, rfl⟩ := WorkerPc.event.inj (hpc.symm.trans hpc')
  obtain ⟨next, hs, hn⟩ := doomed_advance hp hd hact
  have hs' : p.stage = some next := hs
  exact ⟨ev, next, rest, by simp [Worker.resume, hs'], hn, rfl⟩

namespace Server

variable {n : ℕ} {maxclients : ℤ} {s t : Server n} {l : List (Conn × Handler)}

/-- The handler that returns 0 with this step, and for which connection. -/
def served (s : Server n) : Action n → Option (Conn × Handler)
  | .handle w (.mod _) =>
      match (s.workers w).pc with
      | .event ev stage _ => (returning stage).map fun h => (ev.conn, h)
      | _ => none
  | _ => none

theorem served_eq {w : Fin n} {ok : Bool} {ev : Event} {stage : Stage} {rest : List Event}
    {h : Handler} (hpc : (s.workers w).pc = .event ev stage rest) (hr : returning stage = some h) :
    s.served (.handle w (.mod ok)) = some (ev.conn, h) := by
  simp [served, hpc, hr]

theorem served_cases (s : Server n) (a : Action n) :
    (s.served a = none ∧ ∀ w ok, a ≠ .handle w (.mod ok)) ∨ ∃ w ok, a = .handle w (.mod ok) := by
  cases a with
  | handle w act =>
    cases act with
    | mod ok => exact Or.inr ⟨w, ok, rfl⟩
    | _ => exact Or.inl ⟨rfl, by simp⟩
  | _ => exact Or.inl ⟨rfl, by simp⟩

/-- What a mode change does: at most one mask changes, and the event is left unless it
carries an error condition. -/
structure ModStep (s t : Server n) (w : Fin n) (ok : Bool) (ev : Event) (h : Handler) : Prop where
  current : ∃ stage rest, (s.workers w).pc = .event ev stage rest ∧ returning stage = some h
  listener : t.listener = s.listener
  files : t.files = s.files
  accepted : t.accepted = s.accepted
  registered : ∀ w', (t.workers w').registered = (s.workers w').registered
  interest : ∀ w' fd, w' ≠ w ∨ fd ≠ ev.fd →
    (t.workers w').interest fd = (s.workers w').interest fd
  entry : (t.workers w).Entry ev.fd ⟨ev.conn, if ok then
    changeModeEvents h.other.mode .edgeTriggered else ((s.workers w).interest ev.fd).events⟩
  closing : (t.workers w).Closing ev.conn ↔ Fatal ev.events

/-- Past an event without an error condition no event of the batch is for its connection. -/
theorem Owned.not_closing (ho : Owned s) {w : Fin n} {y : Worker} {ev : Event} {stage : Stage}
    {rest : List Event} {p : Pass} (hpc : (s.workers w).pc = .event ev stage rest)
    (hst : StillRegistered stage) (hf : ¬Fatal ev.events)
    (hp : p.stage = none ∨ p.stage = some .format) : ¬(y.resume ev rest p).Closing ev.conn := by
  rintro ⟨ev', stage', rest', hpc', hd, hconn⟩
  rcases hp with hp | hp
  · simp only [Worker.resume, hp] at hpc'
    rcases WorkerPc.dispatch_cases p.nRet rest with ht | ⟨e, st, rs, ht, hs, -⟩ <;> rw [ht] at hpc'
    · cases hpc'
    · obtain ⟨rfl, rfl, rfl⟩ := WorkerPc.event.inj hpc'
      have hmem : e ∈ rest := hs.subset List.mem_cons_self
      obtain ⟨hreg, hc, hne⟩ := (ho.worker w).behind hpc hmem
      obtain ⟨hreg', hc'⟩ := (ho.worker w).current hpc hst
      have hfile := (ho.worker w).registered_open e.fd hreg
      have hfile' := (ho.worker w).registered_open ev.fd hreg'
      rw [hc, hconn] at hfile
      rw [hc'] at hfile'
      exact hne (ho.files_inj _ _ _ hfile hfile')
  · simp only [Worker.resume, hp, WorkerPc.event.injEq] at hpc'
    obtain ⟨rfl, rfl, -⟩ := hpc'
    exact hf hd

theorem mod_step (ho : Owned s) {w : Fin n} {ok : Bool}
    (ht : Transition maxclients s (.handle w (.mod ok)) t) : ∃ ev h, ModStep s t w ok ev h := by
  have hstep : ∀ {ev stage rest p} {y : Worker}, (s.workers w).pc = .event ev stage rest →
      stage.advance .taskThread ev.fd ev.events (s.workers w).nRet (.mod ok) = some p →
      y = (if ok then (s.workers w).changeMask ev.fd (changeModeEvents stage.newMode .edgeTriggered)
        else s.workers w) →
      ∃ ev' h, ModStep s (s.setWorker w (y.resume ev rest p)) w ok ev' h := by
    intro ev stage rest p y hpc hp hy
    obtain ⟨h, hr⟩ := returning_of_mod hp
    rw [newMode_of_returning hr] at hy
    have hst := stillRegistered_of_serving (serving_of_returning hr)
    obtain ⟨hreg, hconn⟩ := (ho.worker w).current hpc hst
    have hyreg : y.registered = (s.workers w).registered := by
      rw [hy]
      split <;> rfl
    refine ⟨ev, h, ⟨stage, rest, hpc, hr⟩, rfl, rfl, rfl, ?_, ?_, ?_, ?_⟩
    · intro w'
      by_cases hw : w' = w
      · subst hw; simpa [Worker.resume] using hyreg
      · simp [hw]
    · intro w' fd hne
      by_cases hw : w' = w
      · subst hw
        have hfd : fd ≠ ev.fd := hne.resolve_left (fun hh => hh rfl)
        rw [hy]
        cases ok <;> simp [Worker.resume, Worker.changeMask, hfd]
      · simp [hw]
    · refine ⟨by simpa [Worker.resume, hyreg] using hreg, ?_⟩
      rw [hy, ← hconn]
      cases ok <;> simp [Worker.resume, Worker.changeMask]
    · simp only [setWorker_workers, Function.update_self]
      constructor
      · intro hcl
        by_contra hf
        exact ho.not_closing hpc hst hf (mod_not_fatal hp hf) hcl
      · intro hf
        have hd : Doomed ev.events stage := by
          cases stage <;> first | exact hf | simp [returning] at hr
        exact Worker.Closing.resume ⟨ev, stage, rest, hpc, hd, rfl⟩ hpc hp (by simp)
  cases ht with
  | @quiet w act ev stage rest p hpc hq hp =>
    cases ok with
    | true => exact hq.elim
    | false => exact hstep hpc hp rfl
  | @modOk w ev stage rest p hpc hp hreg => exact hstep hpc hp rfl

theorem assigned_step {a : Action n} (ht : Transition maxclients s a t) {fd : Fd} {c : Conn}
    (hl : t.listener.Holds fd) (hc : t.files fd = some c) :
    s.accepted ≤ c ∨ (s.listener.Holds fd ∧ s.files fd = some c) := by
  cases ht with
  | listenerTest h =>
    simp only at hl
    split at hl <;> exact hl.elim
  | listenFails | refuse | addOk | addFail | increment => exact hl.elim
  | @accept fd₀ h hfd =>
    rcases Owned.update_eq_some hc with ⟨-, rfl⟩ | ⟨hne, hc⟩
    · exact Or.inl le_rfl
    · have he : fd₀ = fd := (ListenerPc.holds_choosing AssignPc.choosing_loopHead).mp hl
      exact (hne he.symm).elim
  | @read sockfd pc pc' r w h hw hpc =>
    obtain ⟨hch, hch'⟩ := AssignPc.choosing_afterRead hpc
    rw [ListenerPc.holds_choosing hch'] at hl
    exact Or.inr ⟨by rwa [h, ListenerPc.holds_choosing hch], hc⟩
  | @close w ev deleted rest hpc =>
    refine Or.inr ⟨by simpa using hl, ?_⟩
    simp only [setWorker_files, Server.closeFd] at hc
    split at hc
    · exact hc
    · exact (Owned.update_none_eq_some hc).2
  | _ => exact Or.inr ⟨hl, hc⟩

theorem entry_step {a : Action n} (ht : Transition maxclients s a t)
    (ha : ∀ w, a ≠ .handle w (.mod true)) {w : Fin n} {fd : Fd} {r : Registration}
    (he : (t.workers w).Entry fd r) :
    (s.workers w).Entry fd r ∨
      (s.listener.Holds fd ∧ s.files fd = some r.conn ∧ Asks .iWrite r.events) := by
  have hset : ∀ {w' : Fin n} {x : Worker}, ((s.setWorker w' x).workers w).Entry fd r →
      (x.Entry fd r → (s.workers w').Entry fd r) → (s.workers w).Entry fd r :=
    of_worker_setWorker (P := fun x => x.Entry fd r)
  have hremove : ∀ {fd'} {x : Worker}, (x.remove fd').Entry fd r → x.Entry fd r :=
    fun hx => ⟨Finset.mem_of_mem_erase hx.1, hx.2⟩
  have hclose : ∀ {fd'}, ((s.closeFd fd').workers w).Entry fd r → (s.workers w).Entry fd r :=
    fun hx => of_worker_closeFd (P := fun x => x.Entry fd r) hx hremove
  cases ht with
  | shutdown | listenerTest | listenFails | accept | read | addFail => exact Or.inl he
  | refuse => exact Or.inl (hclose he)
  | @addOk sockfd w' c hl hc hep hreg =>
    by_cases hfd : fd = sockfd
    · subst hfd
      by_cases hw : w = w'
      · subst hw
        have hi := he.2
        simp only [setWorker_workers, Function.update_self, Worker.insert] at hi
        subst hi
        exact Or.inr ⟨by rw [hl]; rfl, hc, asks_addEvents .iWrite⟩
      · exact Or.inl (by simpa [hw] using he)
    · refine Or.inl (hset he fun hx => ?_)
      simpa [Worker.Entry, Worker.insert, hfd] using hx
  | increment | workerTest | wait | quiet | delFail | dec => exact Or.inl (hset he id)
  | delOk => exact Or.inl (hset he hremove)
  | @modOk w' => exact (ha w' rfl).elim
  | @close w' ev deleted rest hpc =>
    apply Or.inl
    apply @hclose ev.fd
    exact of_worker_setWorker (P := fun x => x.Entry fd r) he id

/-- A pass that has to close goes on to the `close`, and then there is no entry left. -/
theorem closing_step (ho : Owned s) {a : Action n} (ht : Transition maxclients s a t) {w : Fin n}
    {fd : Fd} {r : Registration} (he : (t.workers w).Entry fd r)
    (hcl : (s.workers w).Closing r.conn) : (t.workers w).Closing r.conn := by
  have hset : ∀ {w' : Fin n} {x : Worker},
      ((s.workers w').Closing r.conn → x.Closing r.conn) →
        ((s.setWorker w' x).workers w).Closing r.conn :=
    fun hx => worker_setWorker (P := fun x => x.Closing r.conn) hx hcl
  have hidle : ∀ {w' : Fin n} {P : Prop},
      (∀ ev stage rest, (s.workers w').pc ≠ .event ev stage rest) →
        (s.workers w').Closing r.conn → P := by
    rintro w' P hno ⟨ev, stage, rest, hpc, -⟩
    exact (hno ev stage rest hpc).elim
  cases ht with
  | shutdown | listenerTest | listenFails | accept | read | addFail => exact hcl
  | refuse =>
    obtain ⟨ev, stage, rest, hpc, hd, hc⟩ := hcl
    exact ⟨ev, stage, rest, by rw [closeFd_pc, hpc], hd, hc⟩
  | addOk | increment => exact hset id
  | @workerTest w' hpc => exact hset (hidle (by simp [hpc]))
  | @wait w' batch hpc => exact hset (hidle (by simp [hpc]))
  | @quiet w' act ev stage rest p hpc hq hp =>
    refine hset fun hx => hx.resume hpc hp ?_
    rintro rfl
    exact hq
  | @modOk w' ev stage rest p hpc hp hreg =>
    exact hset fun hx => hx.resume hpc hp (by simp)
  | @delOk w' ev rest hpc | @delFail w' ev rest hpc =>
    apply hset
    rintro ⟨ev', stage', rest', hpc', -, hc⟩
    obtain ⟨rfl, -, -⟩ := WorkerPc.event.inj (hpc.symm.trans hpc')
    exact ⟨ev, _, rest, rfl, trivial, hc⟩
  | @close w' ev deleted rest hpc =>
    have hfile := (ho.event hpc (by simp)).1
    by_cases hw : w = w'
    · subst hw
      obtain ⟨ev', stage', rest', hpc', -, hc⟩ := hcl
      obtain ⟨rfl, -, -⟩ := WorkerPc.event.inj (hpc.symm.trans hpc')
      simp only [closeFd_eq hfile, setWorker_workers, Function.update_self] at he
      obtain ⟨hne, hmem⟩ := Finset.mem_erase.mp he.1
      have hopen := (ho.worker w).registered_open fd hmem
      have hconn : ((s.workers w).interest fd).conn = r.conn := congrArg Registration.conn he.2
      rw [hconn, ← hc] at hopen
      exact (hne (ho.files_inj _ _ _ hopen hfile)).elim
    · obtain ⟨ev', stage', rest', hpc', hd, hc⟩ := hcl
      refine ⟨ev', stage', rest', ?_, hd, hc⟩
      simp only [setWorker_workers, Function.update_of_ne hw, closeFd_pc, hpc']
  | @dec w' ev rest hpc =>
    apply hset
    rintro ⟨ev', stage', rest', hpc', hd, -⟩
    obtain ⟨-, rfl, -⟩ := WorkerPc.event.inj (hpc.symm.trans hpc')
    exact hd.elim

/-- Each mask asks for the handler whose turn it is, except where the connection is exempt;
a connection that is not registered yet has had no handler. -/
structure Kept (exempt : Worker → Conn → Prop) (s : Server n) (l : List (Conn × Handler)) :
    Prop where
  fresh : ∀ c, s.accepted ≤ c → callsOn c l = []
  assigned : ∀ fd c, s.listener.Holds fd → s.files fd = some c → callsOn c l = []
  entry : ∀ w fd r, (s.workers w).Entry fd r →
    exempt (s.workers w) r.conn ∨ Asks (due (callsOn r.conn l)) r.events

namespace Kept

variable {exempt : Worker → Conn → Prop}

theorem of_start (h : Start s) : Kept exempt s [] where
  fresh _ _ := rfl
  assigned _ _ _ _ := rfl
  entry w fd r he := by
    obtain ⟨hmem, -⟩ := he
    simp [(h.worker w).2.1] at hmem

theorem silent (h : Kept exempt s l) {a : Action n} (ht : Transition maxclients s a t)
    (ha : ∀ w, a ≠ .handle w (.mod true))
    (hex : ∀ w fd r, (t.workers w).Entry fd r →
      exempt (s.workers w) r.conn → exempt (t.workers w) r.conn) : Kept exempt t l where
  fresh c hc := h.fresh c ((accepted_le ht).trans hc)
  assigned fd c hl hc := by
    rcases assigned_step ht hl hc with hle | ⟨hl, hc⟩
    · exact h.fresh c hle
    · exact h.assigned fd c hl hc
  entry w fd r he := by
    rcases entry_step ht ha he with he' | ⟨hl, hc, hask⟩
    · exact (h.entry w fd r he').imp_left (hex w fd r he)
    · rw [h.assigned fd r.conn hl hc]
      exact Or.inr hask

theorem turn (h : Kept exempt s l) (ho : Owned s) (hot : Owned t) {w : Fin n} {ok : Bool}
    {ev : Event} {h' : Handler} (hm : ModStep s t w ok ev h')
    (hex : ∀ w fd r, (t.workers w).Entry fd r →
      exempt (s.workers w) r.conn → exempt (t.workers w) r.conn)
    (hset : ok = true ∨ Asks h'.other ((s.workers w).interest ev.fd).events ∨
      exempt (t.workers w) ev.conn) : Kept exempt t (l ++ [(ev.conn, h')]) := by
  have hfile : t.files ev.fd = some ev.conn := by
    rw [(hot.worker w).registered_open ev.fd hm.entry.1, hm.entry.2]
  have hfile' : s.files ev.fd = some ev.conn := hm.files ▸ hfile
  refine ⟨fun c hc => ?_, fun fd c hl hc => ?_, fun w' fd r he => ?_⟩
  · rw [hm.accepted] at hc
    have hlt := ho.files_lt _ _ hfile'
    rw [callsOn_other (hlt.trans_le hc).ne]
    exact h.fresh c hc
  · rw [hm.listener] at hl
    rw [hm.files] at hc
    rw [callsOn_other, h.assigned fd c hl hc]
    rintro rfl
    obtain rfl := ho.files_inj _ _ _ hc hfile'
    exact (ho.listener hl).2 w (Or.inl (hm.registered w ▸ hm.entry.1))
  · have hopen : t.files fd = some r.conn := by
      rw [(hot.worker w').registered_open fd he.1, he.2]
    by_cases hc : ev.conn = r.conn
    · obtain rfl : fd = ev.fd := hot.files_inj _ _ _ (hc ▸ hopen) hfile
      obtain rfl : w' = w := hot.exclusive (Or.inl he.1) (Or.inl hm.entry.1)
      have hr := he.2.symm.trans hm.entry.2
      subst hr
      simp only [callsOn_self, due_concat]
      rcases hset with rfl | hask | hexempt
      · exact Or.inr (asks_changeModeEvents _)
      · apply Or.inr
        split
        · exact asks_changeModeEvents _
        · exact hask
      · exact Or.inl hexempt
    · have hne : w' ≠ w ∨ fd ≠ ev.fd := by
        by_contra! heq
        obtain ⟨rfl, rfl⟩ := heq
        exact hc (Option.some.inj (hfile.symm.trans hopen))
      have he' : (s.workers w').Entry fd r :=
        ⟨hm.registered w' ▸ he.1, (hm.interest w' fd hne).symm.trans he.2⟩
      rw [callsOn_other hc]
      exact (h.entry w' fd r he').imp_left (hex w' fd r he)

end Kept

/-- The handler that returns with this step has turned the connection, or the loop body
cannot be left without closing it. -/
def TurnsOrCloses (maxclients : ℤ) (s : Server n) (a : Action n) : Prop :=
  ∀ w ok ev stage rest h t, a = .handle w (.mod ok) → (s.workers w).pc = .event ev stage rest →
    returning stage = some h → s.step maxclients a = some t →
      (ev.fd ∈ (t.workers w).registered ∧ Asks h.other ((t.workers w).interest ev.fd).events) ∨
        (t.workers w).Closing ev.conn

/-- The mode change succeeds, is not needed, or is made for an event with an error condition. -/
def ModeSettles (s : Server n) (a : Action n) : Prop :=
  ∀ w ok ev stage rest h, a = .handle w (.mod ok) → (s.workers w).pc = .event ev stage rest →
    returning stage = some h →
      ok = true ∨ Asks h.other ((s.workers w).interest ev.fd).events ∨ Fatal ev.events

/-- Where the kernel reports only what the masks ask for, no mask is turned already. -/
theorem modeSettles_iff_of_directed (hd : Directed s) {a : Action n} :
    s.ModeSettles a ↔ ∀ w ok ev stage rest h, a = .handle w (.mod ok) →
      (s.workers w).pc = .event ev stage rest → returning stage = some h →
        ok = true ∨ Fatal ev.events := by
  constructor
  · intro hset w ok ev stage rest h ha hpc hr
    have hask := ((hd w).current hpc h (serving_of_returning hr)).1
    exact (hset w ok ev stage rest h ha hpc hr).imp_right fun hor =>
      hor.resolve_left hask.not_other
  · intro hset w ok ev stage rest h ha hpc hr
    exact (hset w ok ev stage rest h ha hpc hr).imp_right Or.inr

/-- A connection is open in the direction of the handler that returned last, whose edge is
used up, and nobody is about to close it. -/
def Stranded (s : Server n) (l : List (Conn × Handler)) : Prop :=
  ∃ w fd r h, (s.workers w).Entry fd r ∧ (callsOn r.conn l).getLast? = some h ∧
    Asks h r.events ∧ ¬(s.workers w).Closing r.conn

theorem ModStep.settled_iff {w : Fin n} {ok : Bool} {ev : Event} {h : Handler}
    (hm : ModStep s t w ok ev h) :
    ((ev.fd ∈ (t.workers w).registered ∧ Asks h.other ((t.workers w).interest ev.fd).events) ∨
        (t.workers w).Closing ev.conn) ↔
      ok = true ∨ Asks h.other ((s.workers w).interest ev.fd).events ∨ Fatal ev.events := by
  obtain ⟨hmem, hi⟩ := hm.entry
  rw [hm.closing, hi, ← or_assoc]
  refine or_congr_left ⟨fun hask => ?_, fun hask => ⟨hmem, ?_⟩⟩
  · cases ok with
    | true => exact Or.inl rfl
    | false => exact Or.inr hask.2
  · cases ok with
    | true => exact asks_changeModeEvents _
    | false => exact hask.resolve_left (by decide)

theorem ModStep.eq {w : Fin n} {ok : Bool} {ev ev' : Event} {h h' : Handler} {stage : Stage}
    {rest : List Event} (hm : ModStep s t w ok ev h)
    (hpc : (s.workers w).pc = .event ev' stage rest) (hr : returning stage = some h') :
    ev = ev' ∧ h = h' := by
  obtain ⟨stage', rest', hpc', hr'⟩ := hm.current
  obtain ⟨rfl, rfl, rfl⟩ := WorkerPc.event.inj (hpc.symm.trans hpc')
  exact ⟨rfl, Option.some.inj (hr'.symm.trans hr)⟩

theorem ModStep.served {w : Fin n} {ok : Bool} {ev : Event} {h : Handler}
    (hm : ModStep s t w ok ev h) : s.served (.handle w (.mod ok)) = some (ev.conn, h) := by
  obtain ⟨stage, rest, hpc, hr⟩ := hm.current
  exact served_eq hpc hr

theorem turnsOrCloses_iff (ho : Owned s) {a : Action n} (hstep : s.step maxclients a = some t) :
    s.TurnsOrCloses maxclients a ↔ s.ModeSettles a := by
  constructor
  · rintro hturn w ok ev stage rest h rfl hpc hr
    obtain ⟨ev', h', hm⟩ := mod_step ho (step_cases hstep)
    obtain ⟨rfl, rfl⟩ := hm.eq hpc hr
    exact hm.settled_iff.mp (hturn w ok _ stage rest _ t rfl hpc hr hstep)
  · rintro hset w ok ev stage rest h u rfl hpc hr hu
    obtain ⟨ev', h', hm⟩ := mod_step ho (step_cases hu)
    obtain ⟨rfl, rfl⟩ := hm.eq hpc hr
    exact hm.settled_iff.mpr (hset w ok _ stage rest _ rfl hpc hr)

theorem Kept.not_stranded (h : Kept Worker.Closing s l) : ¬s.Stranded l := by
  rintro ⟨w, fd, r, h', he, hlast, hask, hno⟩
  have hdue := (h.entry w fd r he).resolve_left hno
  rw [due_of_getLast? hlast] at hdue
  exact hask.not_other hdue

theorem Kept.step (h : Kept Worker.Closing s l) (ho : Owned s) {a : Action n}
    (ht : Transition maxclients s a t) (hset : s.ModeSettles a) :
    Kept Worker.Closing t (l ++ (s.served a).toList) := by
  have hex : ∀ w fd r, (t.workers w).Entry fd r →
      (s.workers w).Closing r.conn → (t.workers w).Closing r.conn :=
    fun w fd r he hcl => closing_step ho ht he hcl
  rcases served_cases s a with ⟨hnone, ha⟩ | ⟨w, ok, rfl⟩
  · rw [hnone, Option.toList_none, List.append_nil]
    exact h.silent ht (fun w => ha w true) hex
  · obtain ⟨ev, h', hm⟩ := mod_step ho ht
    obtain ⟨stage, rest, hpc, hr⟩ := hm.current
    rw [hm.served]
    apply h.turn ho (ho.step ht) hm hex
    rw [hm.closing]
    exact hset w ok ev stage rest h' rfl hpc hr

/-- A mode change that failed for an event without an error condition strands its connection. -/
theorem stranded_of_not_settles (ho : Owned s) (hone : OneWay s) {a : Action n}
    (ht : Transition maxclients s a t) (hset : ¬s.ModeSettles a) :
    t.Stranded (l ++ (s.served a).toList) := by
  unfold ModeSettles at hset
  push Not at hset
  obtain ⟨w, ok, ev, stage, rest, h, rfl, hpc, hr, hok, hask, hf⟩ := hset
  obtain ⟨ev', h', hm⟩ := mod_step ho ht
  obtain ⟨rfl, rfl⟩ := hm.eq hpc hr
  obtain rfl : ok = false := eq_false_of_ne_true hok
  refine ⟨w, _, _, h', hm.entry, ?_, ?_, ?_⟩
  · simp [hm.served]
  · obtain ⟨h'', hh⟩ := hone w _ (hm.registered w ▸ hm.entry.1)
    rcases h'.eq_or_eq_other h'' with rfl | rfl
    · exact hh
    · exact (hask hh).elim
  · rw [hm.closing]
    exact hf

theorem turnsOrCloses_run_iff {s₀ : Server n} (h₀ : Start s₀) {tr : List (Action n)}
    (h : (serverMachine n maxclients).Run s₀ tr s) :
    (serverMachine n maxclients).EachStep s₀ tr (TurnsOrCloses maxclients) ↔
      (serverMachine n maxclients).EachStep s₀ tr ModeSettles := by
  apply h.eachStep_congr
  intro tr' u a v hrun hstep
  exact turnsOrCloses_iff (.of_reaches ⟨s₀, h₀, hrun⟩) hstep

/-- No connection is ever stranded exactly as long as each mode change settles. -/
theorem not_stranded_run_iff {s₀ : Server n} (h₀ : Start s₀) {tr : List (Action n)}
    (h : (serverMachine n maxclients).Run s₀ tr s) :
    ((serverMachine n maxclients).Everywhere s₀ tr fun tr' u =>
        ¬u.Stranded ((serverMachine n maxclients).record served s₀ tr')) ↔
      (serverMachine n maxclients).EachStep s₀ tr ModeSettles := by
  apply h.everywhere_iff_eachStep
    (I := fun u l => Owned u ∧ OneWay u ∧ Kept Worker.Closing u l)
    (G := fun u l => ¬u.Stranded l)
  · exact ⟨.of_start h₀, .of_start h₀, .of_start h₀⟩
  · intro u l hu
    exact hu.2.2.not_stranded
  · rintro u a v l ⟨ho, hone, hk⟩ hset hstep
    have ht := step_cases hstep
    exact ⟨ho.step ht, hone.step oneWay_invariant ht, hk.step ho ht hset⟩
  · rintro u a v l ⟨ho, hone, -⟩ hset hstep hno
    exact hno (stranded_of_not_settles ho hone (step_cases hstep) hset)

theorem eachStep_modeSettles {s : Server n} {tr : List (Action n)}
    (h : ∀ w, .handle w (.mod false) ∉ tr) :
    (serverMachine n maxclients).EachStep s tr ModeSettles := by
  rintro tr' a u hpre hrun w ok ev stage rest h' rfl hpc hr
  refine Or.inl (eq_true_of_ne_false ?_)
  rintro rfl
  exact h w (hpre.subset (by simp))

/-- Worker `w` greets the client behind `fd` and is about to change the mode. -/
def greet (w : Fin n) (fd : Fd) (errno : ℤ) : List (Action n) :=
  [.workerTest w, .wait w [(fd, EPOLLOUT)], .handle w (.format 1),
    .handle w (.send (.sent (message .taskThread fd 1).length) errno)]

theorem not_turnsOrCloses :
    ∃ s : Server 2, (maskedMachine 2 10).Run (initial 2)
        (connect 7 ++ greet 1 7 0 ++ [.handle 1 (.mod false)]) s ∧
      ¬(serverMachine 2 10).EachStep (initial 2)
        (connect 7 ++ greet 1 7 0 ++ [.handle 1 (.mod false)]) (TurnsOrCloses 10) ∧
      s.Stranded ((serverMachine 2 10).record served (initial 2)
        (connect 7 ++ greet 1 7 0 ++ [.handle 1 (.mod false)])) ∧
      s.files 7 = some 0 ∧ (s.workers 1).activeConns = 1 := by
  have hmasked := Machine.Run.of_isSome (M := maskedMachine 2 10) (s := initial 2)
    (connect 7 ++ greet 1 7 0 ++ [.handle 1 (.mod false)]) (by decide)
  obtain ⟨u, hu, hpc, hfacts⟩ : ∃ u : Server 2,
      (serverMachine 2 10).Run (initial 2) (connect 7 ++ greet 1 7 0) u ∧
      (u.workers 1).pc = .event ⟨7, EPOLLOUT, 0⟩ .changeToRead [] ∧
      ¬(false = true ∨ Asks .iRead ((u.workers 1).interest 7).events ∨ Fatal EPOLLOUT) :=
    ⟨_, .of_isSome (connect 7 ++ greet 1 7 0) (by decide), by decide, by decide⟩
  have hset : ¬u.ModeSettles (.handle 1 (.mod false)) :=
    fun hset => hfacts (hset 1 false _ _ _ .iWrite rfl hpc rfl)
  obtain ⟨u', hu', hlast⟩ := hmasked.last
  obtain rfl := hu'.of_restrict.functional hu
  have hreach : (serverMachine 2 10).Reaches (connect 7 ++ greet 1 7 0) u' :=
    ⟨initial 2, start_initial, hu⟩
  have ho := Owned.of_reaches hreach
  have hstep : u'.step 10 (.handle 1 (.mod false)) = some _ :=
    (Machine.restrict_step.mp hlast).1
  refine ⟨_, hmasked, ?_, ?_, by decide, by decide⟩
  · intro heach
    have hturn := ((hu.eachStep_snoc _).mp heach).2
    exact hset ((turnsOrCloses_iff ho hstep).mp hturn)
  · rw [hu.record_snoc]
    exact stranded_of_not_settles ho (.of_reaches oneWay_invariant hreach) (step_cases hstep) hset

end Server

namespace LoggedServer

open CallingAct

variable {n : ℕ} {maxclients verbosity : ℤ} {S₀ S : LoggedServer n}
  {tr : List (CallingAct (Action n) (Thread n) LogCall)} {l : List (Conn × Handler)}

/-- A connection is open in the direction of the handler that returned last, and nobody is
about to close it, or the worker that is cannot get to it. -/
def Stranded (S : LoggedServer n) (l : List (Conn × Handler)) : Prop :=
  ∃ w fd r h, (S.state.workers w).Entry fd r ∧ (callsOn r.conn l).getLast? = some h ∧
    Asks h r.events ∧ ((S.state.workers w).Closing r.conn → S.Stuck (.worker w))

/-- No worker that has to close a connection after a failed mode change waits for the mutex. -/
def Unhindered (S : LoggedServer n) (l : List (Conn × Handler)) : Prop :=
  ∀ w fd r h, (S.state.workers w).Entry fd r → (callsOn r.conn l).getLast? = some h →
    Asks h r.events → (S.state.workers w).Closing r.conn → ¬S.Stuck (.worker w)

theorem not_stranded_iff : ¬S.Stranded l ↔ ¬S.state.Stranded l ∧ S.Unhindered l := by
  constructor
  · intro hno
    constructor
    · rintro ⟨w, fd, r, h, he, hlast, hask, hcl⟩
      exact hno ⟨w, fd, r, h, he, hlast, hask, fun hcl' => (hcl hcl').elim⟩
    · intro w fd r h he hlast hask hcl hstuck
      exact hno ⟨w, fd, r, h, he, hlast, hask, fun _ => hstuck⟩
  · rintro ⟨hno, hun⟩ ⟨w, fd, r, h, he, hlast, hask, hor⟩
    by_cases hcl : (S.state.workers w).Closing r.conn
    · exact hun w fd r h he hlast hask hcl (hor hcl)
    · exact hno ⟨w, fd, r, h, he, hlast, hask, hcl⟩

/-- The handlers that have returned 0, in a run with its log calls. -/
def handlers (maxclients : ℤ) (S₀ : LoggedServer n)
    (tr : List (CallingAct (Action n) (Thread n) LogCall)) : List (Conn × Handler) :=
  (serverMachine n maxclients).record Server.served S₀.state (actions tr)

/-- Over every run: the handlers that return 0 have turned their connection or it is bound to
be closed as long as each mode change settles, and no connection is ever stranded if moreover
the mutex is not lost on the way to a `close`. -/
theorem mode_change_settles_iff (h₀ : (loggedMachine n maxclients verbosity).start S₀)
    (h : (loggedMachine n maxclients verbosity).Run S₀ tr S) :
    ((serverMachine n maxclients).EachStep S₀.state (actions tr)
        (Server.TurnsOrCloses maxclients) ↔
      (serverMachine n maxclients).EachStep S₀.state (actions tr) Server.ModeSettles) ∧
    (((loggedMachine n maxclients verbosity).Everywhere S₀ tr fun tr' T =>
        ¬T.Stranded (handlers maxclients S₀ tr')) ↔
      (serverMachine n maxclients).EachStep S₀.state (actions tr) Server.ModeSettles ∧
        (loggedMachine n maxclients verbosity).Everywhere S₀ tr fun tr' T =>
          T.Unhindered (handlers maxclients S₀ tr')) := by
  refine ⟨Server.turnsOrCloses_run_iff h₀.1 h.state, ?_⟩
  rw [← Server.not_stranded_run_iff h₀.1 h.state, ← h.everywhere_actions_iff]
  constructor
  · intro hno
    exact ⟨fun tr' T hpre hrun => (not_stranded_iff.mp (hno tr' T hpre hrun)).1,
      fun tr' T hpre hrun => (not_stranded_iff.mp (hno tr' T hpre hrun)).2⟩
  · rintro ⟨hno, hun⟩ tr' T hpre hrun
    exact not_stranded_iff.mpr ⟨hno tr' T hpre hrun, hun tr' T hpre hrun⟩

theorem mode_change_settles_iff_greet :
    ∃ S : LoggedServer 2, (loggedMachine 2 10 MY_DEBUG).Run (initial 2)
        (loggedConnect 7 ++ silently (Server.greet 1 7 0 ++ [.handle 1 (.mod true)])) S ∧
      (loggedMachine 2 10 MY_DEBUG).Everywhere (initial 2)
        (loggedConnect 7 ++ silently (Server.greet 1 7 0 ++ [.handle 1 (.mod true)]))
        fun tr' T => ¬T.Stranded (handlers 10 (initial 2) tr') := by
  have h := Machine.Run.of_isSome (M := loggedMachine 2 10 MY_DEBUG) (s := initial 2)
    (loggedConnect 7 ++ silently (Server.greet 1 7 0 ++ [.handle 1 (.mod true)]))
    (by decide)
  refine ⟨_, h, (mode_change_settles_iff start_initial h).2.mpr ⟨?_, ?_⟩⟩
  · exact Server.eachStep_modeSettles (by decide)
  · intro tr' T hpre hrun w fd r h' _ _ _ _ hstuck
    have hlose : ∀ x, .lose x ∉ loggedConnect 7 ++
        silently (Server.greet 1 7 0 ++ [.handle 1 (.mod true)]) := by
      rintro (_ | _ | w) <;> simp [loggedConnect, accepting, silently]
    have hheld := held_eq_false (by decide) rfl hrun fun x hmem => hlose x (hpre.subset hmem)
    simp [hstuck.1] at hheld

/-- Worker `w` greets client 7 on an event with an error condition, and the mode change fails. -/
def failing (w : Fin 2) : List (CallingAct (Action 2) (Thread 2) LogCall) :=
  loggedConnect 7 ++
    silently [.workerTest w, .wait w [(7, EPOLLOUT ||| EPOLLERR)], .handle w (.format 1),
      .handle w (.send (.sent (message .taskThread 7 1).length) 0)] ++
    [.step (.handle w (.mod false)) [.modErr, .error]]

/-- The first mode change fails for a kernel that reports nothing but what the mask asks for:
the client stays open and counted, waiting for an edge that was used up. It fails for an event
with an error condition, after the message about the client has taken the mutex along: the
worker stops at the message about the failure. -/
theorem not_mode_change_settles :
    (∃ (tr : List (CallingAct (Action 2) (Thread 2) LogCall)) (S : LoggedServer 2),
      (loggedMachine 2 10 MY_DEBUG).Run (initial 2) tr S ∧
      (∃ s, (maskedMachine 2 10).Run (Server.initial 2) (actions tr) s) ∧
      ¬(serverMachine 2 10).EachStep (Server.initial 2) (actions tr)
        (Server.TurnsOrCloses 10) ∧
      S.Stranded (handlers 10 (initial 2) tr) ∧ S.state.files 7 = some 0 ∧
      (S.state.workers 1).activeConns = 1) ∧
    ∃ S : LoggedServer 2, (loggedMachine 2 10 MY_NOTICE).Run (initial 2) (failing 1) S ∧
      S.Stuck (.worker 1) ∧ S.Stranded (handlers 10 (initial 2) (failing 1)) := by
  constructor
  · obtain ⟨s, hmasked, hnot, hstranded, hfile, hcount⟩ := Server.not_turnsOrCloses
    have hlogged : ∃ tr S, (loggedMachine 2 10 MY_DEBUG).Run (initial 2) tr S ∧
        actions tr = Server.connect 7 ++ Server.greet 1 7 0 ++ [.handle 1 (.mod false)] ∧
        S.state = s ∧ S.held = false := exists_run le_rfl rfl hmasked.of_restrict
    obtain ⟨tr, S, hrun, hacts, rfl, -⟩ := hlogged
    rw [← hacts] at hmasked hnot hstranded
    obtain ⟨w, fd, r, h, he, hlast, hask, hno⟩ := hstranded
    exact ⟨tr, S, hrun, ⟨_, hmasked⟩, hnot,
      ⟨w, fd, r, h, he, hlast, hask, fun hcl => (hno hcl).elim⟩, hfile, hcount⟩
  · have h := Machine.Run.of_isSome (M := loggedMachine 2 10 MY_NOTICE) (s := initial 2)
      (failing 1) (by decide)
    refine ⟨_, h, by decide, 1, 7, ⟨0, addEvents .write .edgeTriggered⟩, .iWrite, ?_, ?_, ?_, ?_⟩
    · exact ⟨by decide, by decide⟩
    · decide
    · exact asks_addEvents .iWrite
    · exact fun _ => by decide

end LoggedServer
end EpollThreads.Dispatch
