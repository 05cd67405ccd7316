import EpollThreads.Connection.Calm
import EpollThreads.Connection.Stream
import EpollThreads.Foundations.Within

/-!
# A conversation can always go on

As long as neither side is closing, a few steps of the workers and deliveries of the
network lead to the next complete message, and none of them fails: the side that is
to write does so, or the bytes under way reach a side that reads them and answers.
-/

namespace EpollThreads.Connection

open Foundations Events

namespace Endpoint

/-- A step in which nothing fails but the `recv` that finds the queue empty, nobody closes, and
nothing is reported without cause. -/
def smooth (e : Endpoint) : EndpointAct → Bool
  | .drain _ | .add | .wait | .begin _ | .handle (.format _) | .handle (.recv (.data _) _)
  | .handle (.send (.sent _) _) | .handle (.mod true) => true
  | .handle (.recv .fail errno) => e.rcvq = [] ∧ errno = EAGAIN
  | _ => false

variable {role : Role} {sockfd : ℕ} {e e' : Endpoint} {events : BitVec 32}

/-- A message is complete after at most `n` smooth steps. -/
def Speaks (role : Role) (sockfd n : ℕ) : Endpoint → Prop :=
  ((endpointMachine role sockfd).restrict fun e a _ => e.smooth a = true).Within
    (fun e _ e' => e.sends e' = true) n

theorem Speaks.now {a : EndpointAct} (hstep : e.step role sockfd a = some e')
    (ha : e.smooth a = true) (hs : e.sends e' = true) : Speaks role sockfd 1 e :=
  Machine.Within.now (Machine.restrict_step.mpr ⟨hstep, ha⟩) hs

theorem Speaks.later {n : ℕ} {a : EndpointAct} (hstep : e.step role sockfd a = some e')
    (ha : e.smooth a = true) (h : Speaks role sockfd n e') : Speaks role sockfd (n + 1) e :=
  Machine.Within.later (Machine.restrict_step.mpr ⟨hstep, ha⟩) h

/-- The three invariants of an endpoint whose peer has not closed. -/
structure Steady (e : Endpoint) : Prop where
  wf : e.Wf
  watched : e.Watched
  calm : e.Calm

theorem Steady.step (h : e.Steady) {a : EndpointAct} (hok : a.CtlOk)
    (ht : Transition role sockfd e a e') (hfin : a ≠ .fin) (hreset : a ≠ .reset) : e'.Steady :=
  ⟨h.wf.step ht, h.watched.step h.wf hok ht, h.calm.step h.wf ht hfin hreset⟩

/-- Whatever room there was, there is enough of it after the kernel has sent something. -/
theorem exists_drain (role : Role) (sockfd : ℕ) (e : Endpoint) (k : ℕ) :
    ∃ e₁, e.step role sockfd (.drain k) = some e₁ ∧ k ≤ e₁.room ∧ e₁.pc = e.pc ∧
      e₁.mask = e.mask ∧ e₁.opened = e.opened := by
  by_cases hr : e.room = 0
  · exact ⟨_, if_pos hr, le_rfl, rfl, rfl, rfl⟩
  · exact ⟨_, if_neg hr, Nat.le_add_left _ _, rfl, rfl, rfl⟩

theorem handle_eq {stage : Stage} {act : HandlerAct} {p : Pass} {e₁ : Endpoint}
    (hpc : e.pc = .handling events stage)
    (ha : stage.advance role sockfd events e.nRet act = some p)
    (he : e.effect stage act = some e₁) :
    e.step role sockfd (.handle act) = some (e₁.resume events p) := by
  simp [Endpoint.step, handle, hpc, ha, he]

theorem speaks_sendn {s : Sendn} (hw : e.Wf) (hpc : e.pc = .handling events (.sendn s)) :
    Speaks role sockfd 2 e := by
  obtain ⟨e₁, hdrain, hroom, hpc₁, -, -⟩ := exists_drain role sockfd e s.str.length
  rw [hpc] at hpc₁
  have hsend : s.Sending := (hw.stage _ _ hpc).1
  have hpos : 0 < s.str.length := by have := hsend.room; have := hsend.inside; omega
  have ha : s.Admits (.sent s.str.length) := ⟨hpos, hsend.room.ge⟩
  have hdone : Stage.ofSendn events e₁.nRet (s.send (.sent s.str.length) 0) =
      ⟨some .changeToRead, e₁.nRet⟩ := by
    rcases hsend.send ha 0 with ⟨k, hk, -, -, ⟨-, hrest⟩ | ⟨-, hd, hn⟩⟩ | ⟨hf, -⟩
    · obtain rfl := SendResult.sent.inj hk
      exact absurd hrest.inside (by have := hsend.room; simp only; omega)
    · rw [hd]
      exact if_neg (by omega)
    · cases hf
  have hstep : e₁.step role sockfd (.handle (.send (.sent s.str.length) 0)) = some _ :=
    handle_eq hpc₁ (if_pos ha) (if_pos hroom)
  rw [hdone] at hstep
  refine .later hdrain rfl (.now hstep rfl ?_)
  simp [sends, hpc₁, Endpoint.resume]

theorem speaks_format (hw : e.Wf) (hfd : sockfd < 2 ^ 31)
    (hpc : e.pc = .handling events .format) : Speaks role sockfd 3 e := by
  have hlen := length_message_lt role hfd (show 0 < 10 ^ 6 by decide)
  have hstep : e.step role sockfd (.handle (.format 0)) = some _ :=
    handle_eq hpc (if_pos hlen) rfl
  rw [(Sendn.test_start (message_ne_nil role sockfd 0) hlen).1] at hstep
  exact .later hstep rfl (speaks_sendn (hw.step (step_cases hstep)) rfl)

theorem speaks_reported_out (hw : e.Wf) (hfd : sockfd < 2 ^ 31) (hpc : e.pc = .reported events)
    (hin : has events EPOLLIN = false) (hout : has events EPOLLOUT = true) :
    Speaks role sockfd 4 e := by
  have hbegin : beginEvent events 0 = some .format := by simp [beginEvent, hin, afterRead, hout]
  have hstep : e.step role sockfd (.begin 0) = some (e.resume events ⟨some .format, 0⟩) := by
    simp [Endpoint.step, hpc, hbegin]
  exact .later hstep rfl (speaks_format (hw.step (step_cases hstep)) hfd rfl)

theorem wait_eq {m : BitVec 32} (hpc : e.pc = .idle) (hm : e.mask = some m)
    (hp : e.pending = true) (hne : e.ready &&& m ≠ 0) : e.step role sockfd .wait =
      some { e with pending := false, pc := .reported (e.ready &&& m) } := by
  simpa [Endpoint.step, hpc, hm, hp] using hne

theorem ne_zero_of_has {m flags : BitVec 32} (h : has m flags = true) : m ≠ 0 := by
  rintro rfl
  simp at h

theorem speaks_idle_out (h : e.Steady) (hfd : sockfd < 2 ^ 31) (hpc : e.pc = .idle)
    {m : BitVec 32} (hm : e.mask = some m) (hout : has m EPOLLOUT = true) :
    Speaks role sockfd 6 e := by
  obtain ⟨e₁, hdrain, hroom, hpc₁, hm₁, ho₁⟩ := exists_drain role sockfd e 1
  have h₁ : e₁.Steady := h.step (a := .drain 1) trivial (step_cases hdrain) (by simp) (by simp)
  rw [hpc] at hpc₁
  rw [hm] at hm₁
  have hopen : e₁.opened = true := ho₁.trans (h.wf.mask m hm).1
  have hw : e₁.writable = true := by simp [writable, Nat.pos_of_ne_zero (Nat.ne_of_gt hroom)]
  have hp : e₁.pending = true := by
    simpa using (h₁.watched.idle hpc₁ hopen m hm₁).2 hout hw
  have hready : has (e₁.ready &&& m) EPOLLOUT = true := (has_ready_out hw).trans hout
  have hin : has (e₁.ready &&& m) EPOLLIN = false := by
    by_contra hc
    have hboth := (h₁.wf.mask m hm₁).2 (has_of_and (Bool.eq_true_of_not_eq_false hc))
    simp [hboth] at hout
  have hwait : e₁.step role sockfd .wait = some _ := wait_eq hpc₁ hm₁ hp (ne_zero_of_has hready)
  exact .later hdrain rfl (.later hwait rfl
    (speaks_reported_out (h₁.wf.step (step_cases hwait)) hfd rfl hin hready))

theorem speaks_changeToWrite (h : e.Steady) (hfd : sockfd < 2 ^ 31)
    (hpc : e.pc = .handling events .changeToWrite) : Speaks role sockfd 7 e := by
  obtain ⟨hev, hsome, -⟩ := h.calm.stage _ _ hpc id
  have hstep : e.step role sockfd (.handle (.mod true)) = some _ :=
    handle_eq hpc rfl (if_pos hsome)
  have h' := h.step (a := .handle (.mod true)) rfl (step_cases hstep) (by simp) (by simp)
  rcases afterRead_cases events 0 with ⟨-, he⟩ | ⟨-, he⟩
  · rw [he] at hstep h'
    exact .later hstep rfl ((speaks_format h'.wf hfd rfl).mono (by decide))
  · have hnone : afterWrite events 0 = none := by
      unfold afterWrite
      rw [if_neg (by simpa [troubled] using hev)]
      rfl
    rw [he, hnone] at hstep h'
    exact .later hstep rfl (speaks_idle_out h' hfd rfl rfl (by decide))

/-- A read in progress that has something ends where the queue is empty. -/
theorem speaks_recvn_empty (h : e.Steady) (hfd : sockfd < 2 ^ 31) {r : Recvn}
    (hpc : e.pc = .handling events (.recvn r)) (hq : e.rcvq = []) : Speaks role sockfd 8 e := by
  have hfill : r.Filling := (h.wf.stage _ _ hpc).1.1
  have hr : r.str ≠ [] := fun hr => (h.calm.stage _ _ hpc id).2.2 r rfl hr hq
  have hstep : e.step role sockfd (.handle (.recv .fail EAGAIN)) = some _ :=
    handle_eq hpc rfl rfl
  have h' := h.step (a := .handle (.recv .fail EAGAIN)) trivial (step_cases hstep) (by simp)
    (by simp)
  have hdone : Stage.ofRecvn events e.nRet (r.recv .fail EAGAIN) =
      ⟨some .changeToWrite, e.nRet⟩ := by
    have hlen : r.str.length ≤ MIN_BUFSZ := by
      have := hfill.room; have := hfill.inside; omega
    have hret : r.recv .fail EAGAIN = .done r.result := rfl
    have hpos := List.length_pos_iff.mpr hr
    rw [hret, Recvn.Filling.result hfill.nLen hfill.room hlen]
    exact if_neg (by omega)
  rw [hdone] at hstep h'
  exact .later hstep (by simp [smooth, hq]) (speaks_changeToWrite h' hfd rfl)

theorem speaks_recvn (h : e.Steady) (hfd : sockfd < 2 ^ 31) {r : Recvn}
    (hpc : e.pc = .handling events (.recvn r)) : Speaks role sockfd 9 e := by
  by_cases hq : e.rcvq = []
  · exact (speaks_recvn_empty h hfd hpc hq).mono (by decide)
  · have hfill : r.Filling := (h.wf.stage _ _ hpc).1.1
    have hinside := hfill.inside
    have hlen := List.length_take (i := r.n.toNat) (l := e.rcvq)
    have hpos := List.length_pos_iff.mpr hq
    have ha : r.Admits (.data (e.rcvq.take r.n.toNat)) :=
      ⟨List.length_pos_iff.mp (by omega), by omega⟩
    have hstep : e.step role sockfd (.handle (.recv (.data (e.rcvq.take r.n.toNat)) 0)) = some _ :=
      handle_eq hpc (if_pos ha) (if_pos (List.take_prefix _ _))
    have h' := h.step (a := .handle (.recv (.data _) 0)) trivial (step_cases hstep) (by simp)
      (by simp)
    rcases ofRecvn_cases hfill ha 0 events e.nRet with
      ⟨r', hfill', hstr, hp⟩ | ⟨-, hp⟩ | ⟨hnil, -⟩
    · rw [hp] at hstep h'
      have hempty : e.rcvq.drop (e.rcvq.take r.n.toNat).length = [] := by
        have hroom := hfill.room
        have hroom' := hfill'.room
        have hinside' := hfill'.inside
        rw [hstr, List.length_append, received] at hroom'
        rw [List.drop_eq_nil_iff]
        omega
      exact .later hstep rfl (speaks_recvn_empty h' hfd rfl hempty)
    · rw [hp] at hstep h'
      exact .later hstep rfl ((speaks_changeToWrite h' hfd rfl).mono (by decide))
    · exact absurd (List.append_eq_nil_iff.mp hnil).2 ha.1

theorem speaks_reported_in (h : e.Steady) (hfd : sockfd < 2 ^ 31) (hpc : e.pc = .reported events)
    (hin : has events EPOLLIN = true) : Speaks role sockfd 10 e := by
  have hbegin : beginEvent events 0 = some (.recvn (.start MIN_BUFSZ)) := by
    simp [beginEvent, hin]
  have hstep : e.step role sockfd (.begin 0) =
      some (e.resume events ⟨some (.recvn (.start MIN_BUFSZ)), 0⟩) := by
    simp [Endpoint.step, hpc, hbegin]
  have h' := h.step (a := .begin 0) trivial (step_cases hstep) (by simp) (by simp)
  exact .later hstep rfl (speaks_recvn h' hfd rfl)

theorem speaks_idle_in (h : e.Steady) (hfd : sockfd < 2 ^ 31) (hpc : e.pc = .idle)
    {m : BitVec 32} (hm : e.mask = some m) (hin : has m EPOLLIN = true) (hq : e.rcvq ≠ []) :
    Speaks role sockfd 11 e := by
  have hread : e.readable = true := by simp [readable, hq]
  have hp : e.pending = true := by
    simpa using (h.watched.idle hpc (h.wf.mask m hm).1 m hm).1 hin hread
  have hready : has (e.ready &&& m) EPOLLIN = true := (has_ready_in hread).trans hin
  have hwait : e.step role sockfd .wait = some _ := wait_eq hpc hm hp (ne_zero_of_has hready)
  have h' := h.step (a := .wait) trivial (step_cases hwait) (by simp) (by simp)
  exact .later hwait rfl (speaks_reported_in h' hfd rfl hready)

theorem speaks_changeToRead (h : e.Steady) (hfd : sockfd < 2 ^ 31)
    (hpc : e.pc = .handling events .changeToRead) (hq : e.rcvq ≠ []) : Speaks role sockfd 12 e := by
  obtain ⟨hev, hsome, -⟩ := h.calm.stage _ _ hpc id
  have hstep : e.step role sockfd (.handle (.mod true)) = some _ :=
    handle_eq hpc rfl (if_pos hsome)
  have h' := h.step (a := .handle (.mod true)) rfl (step_cases hstep) (by simp) (by simp)
  have hnone : afterWrite events 0 = none := by
    unfold afterWrite
    rw [if_neg (by simpa [troubled] using hev)]
    rfl
  rw [hnone] at hstep h'
  exact .later hstep rfl (speaks_idle_in h' hfd rfl rfl (by decide) hq)

theorem speaks_unregistered (h : e.Steady) (hfd : sockfd < 2 ^ 31) (hpc : e.pc = .idle)
    (hm : e.mask = none) (ho : e.opened = true)
    (hb : firstMode role = .write ∨ e.rcvq ≠ []) : Speaks role sockfd 12 e := by
  have hstep : e.step role sockfd .add = some _ := if_pos ⟨ho, hm, hpc⟩
  have h' := h.step (a := .add) trivial (step_cases hstep) (by simp) (by simp)
  cases role with
  | taskThread =>
    exact .later hstep rfl ((speaks_idle_out h' hfd hpc rfl (by decide)).mono (by decide))
  | test =>
    have hq : e.rcvq ≠ [] := hb.resolve_left (by simp [firstMode])
    exact .later hstep rfl (speaks_idle_in h' hfd hpc rfl (by decide) hq)

/-- The side that has something to do gets to its next message. -/
theorem speaks_of_busy (h : e.Steady) (hfd : sockfd < 2 ^ 31) (hl : ¬e.Left)
    (hopen : e.opened = true) (hb : e.Busy role) : Speaks role sockfd 12 e := by
  cases hpc : e.pc with
  | idle =>
    rw [busy_waiting (by simp [hpc])] at hb
    have hb' := hb.resolve_left (by simp [hopen])
    cases hm : e.mask with
    | none => exact speaks_unregistered h hfd hpc hm hopen (by simpa [hm, WritesNext] using hb')
    | some m =>
      cases hout : has m EPOLLOUT with
      | true => exact (speaks_idle_out h hfd hpc hm hout).mono (by decide)
      | false =>
        have hin := (h.calm.mask m hm).resolve_right (by simp [hout])
        have hq := hb'.resolve_left (by simp [hm, WritesNext, hout])
        exact (speaks_idle_in h hfd hpc hm hin hq).mono (by decide)
  | reported events =>
    obtain ⟨-, hdir, -⟩ := h.calm.reported events hpc
    cases hin : has events EPOLLIN with
    | true => exact (speaks_reported_in h hfd hpc hin).mono (by decide)
    | false =>
      have hout := hdir.resolve_left (by simp [hin])
      exact (speaks_reported_out h.wf hfd hpc hin hout).mono (by decide)
  | handling events stage =>
    rw [left_handling hpc] at hl
    cases stage with
    | recvn r => exact (speaks_recvn h hfd hpc).mono (by decide)
    | changeToWrite => exact (speaks_changeToWrite h hfd hpc).mono (by decide)
    | format => exact (speaks_format h.wf hfd hpc).mono (by decide)
    | sendn s => exact (speaks_sendn h.wf hpc).mono (by decide)
    | changeToRead =>
      rw [busy_handling hpc id id] at hb
      have hq : e.rcvq ≠ [] := by simpa [hopen, got, hpc] using hb
      exact speaks_changeToRead h hfd hpc hq
    | iError | del | close | dec => exact absurd trivial hl

theorem left_step (h : e.opened = false → e.Left) (hw : e.Wf) {a : EndpointAct}
    (ht : Transition role sockfd e a e') : e'.opened = false → e'.Left := by
  intro ho
  by_cases hopen : e.opened = false
  · exact (h hopen).step hw ht
  · cases ht with
    | close => cases role <;> [exact trivial; exact rfl]
    | changeToWrite hpc hm he | changeToRead hpc hm he | del hpc he =>
      subst he
      rename_i ok
      cases ok <;> exact absurd ho hopen
    | _ => exact absurd ho hopen

theorem opened_step {a : EndpointAct} (ht : Transition role sockfd e a e')
    (ho : e'.opened = true) : e.opened = true := by
  cases ht with
  | close => cases ho
  | changeToWrite hpc hm he | changeToRead hpc hm he | del hpc he =>
    subst he
    rename_i ok
    cases ok <;> exact ho
  | _ => exact ho

theorem not_left_of_sends (h : e.sends e' = true) : ¬e'.Left := by
  unfold sends at h
  split at h
  · rename_i hpc'
    rw [left_handling hpc']
    exact id
  · cases h

end Endpoint

namespace Link

variable {sockfd : Role → ℕ} {s t : Link}

def smooth (s : Link) : LinkAct → Bool
  | .act r a => (s.side r).endpoint.smooth a
  | .deliver _ _ => true

/-- What keeps a conversation going. -/
structure Going (s : Link) : Prop where
  wf : ∀ r, (s.side r).endpoint.Wf
  watched : ∀ r, (s.side r).endpoint.Watched
  left : ∀ r, (s.side r).endpoint.opened = false → (s.side r).endpoint.Left
  calm : ∀ r, (s.side (peer r)).endpoint.opened = true → (s.side r).endpoint.Calm
  lively : s.Lively

theorem Going.side (h : s.Going) {q : Role} {x : Side} {a : EndpointAct}
    (ht : Endpoint.Transition q (sockfd q) (s.side q).endpoint a x.endpoint)
    (hside : t.side = Function.update s.side q x) (hok : a.CtlOk)
    (hlocal : (s.side (peer q)).endpoint.opened = true → a ≠ .fin ∧ a ≠ .reset)
    (hlively : t.Lively) : t.Going := by
  have hq : t.side q = x := by simp [hside]
  have hp : t.side (peer q) = s.side (peer q) := by simp [hside]
  refine ⟨fun r => ?_, fun r => ?_, fun r => ?_, fun r => ?_, hlively⟩ <;>
    rcases eq_or_eq_peer r q with rfl | rfl
  · exact hq ▸ (h.wf r).step ht
  · exact hp ▸ h.wf _
  · exact hq ▸ (h.watched r).step (h.wf r) hok ht
  · exact hp ▸ h.watched _
  · exact hq ▸ Endpoint.left_step (h.left r) (h.wf r) ht
  · exact hp ▸ h.left _
  · intro ho
    rw [hp] at ho
    obtain ⟨hfin, hreset⟩ := hlocal ho
    exact hq ▸ (h.calm r ho).step (h.wf r) ht hfin hreset
  · intro ho
    rw [peer_peer, hq] at ho
    rw [hp]
    exact h.calm _ (by rw [peer_peer]; exact Endpoint.opened_step ht ho)

theorem Going.step (h : s.Going) {a : LinkAct} (hok : a.CtlOk) (hstep : s.step sockfd a = some t) :
    t.Going := by
  have hlively := h.lively.step h.wf hok hstep
  cases a with
  | act q a =>
    obtain ⟨e, ht, hside, -⟩ := step_act hstep
    simp only [Link.step, Option.ite_none_right_eq_some] at hstep
    refine h.side ht hside hok (fun ho => ?_) hlively
    rw [ho] at hstep
    exact ⟨by rintro rfl; simp [EndpointAct.isLocal] at hstep,
      by rintro rfl; simp [EndpointAct.isLocal] at hstep⟩
  | deliver q k =>
    obtain ⟨e, ht, hside, -⟩ := step_deliver hstep
    exact h.side (a := .arrive _) ht hside trivial (fun _ => by simp) hlively

/-- Neither side is being closed or has been. -/
def Open (s : Link) : Prop := ∀ r, ¬(s.side r).endpoint.Left

theorem Going.opened (h : s.Going) (ho : s.Open) (r : Role) :
    (s.side r).endpoint.opened = true := by
  by_contra hc
  exact ho r (h.left r (Bool.eq_false_of_not_eq_true hc))

theorem Going.speaks (h : s.Going) (ho : s.Open) {r : Role} (hfd : sockfd r < 2 ^ 31)
    (hb : (s.side r).endpoint.Busy r) : (s.side r).endpoint.Speaks r (sockfd r) 12 :=
  Endpoint.speaks_of_busy ⟨h.wf r, h.watched r, h.calm r (h.opened ho _)⟩ hfd (ho r)
    (h.opened ho r) hb

/-- The next message of one side, and both sides still open. -/
def Spoken (s : Link) (_ : LinkAct) (t : Link) : Prop :=
  (∃ r, s.sent r < t.sent r) ∧ t.Open

/-- The link without failures and closes. -/
def smoothly (sockfd : Role → ℕ) : Machine Link LinkAct :=
  (pingPong sockfd).restrict fun s a _ => s.smooth a = true

theorem spoken_of_speaks {n : ℕ} (ho : s.Open) {r : Role}
    (h : (s.side r).endpoint.Speaks r (sockfd r) n) : (smoothly sockfd).Within Spoken n s := by
  refine h.lift (R := fun s e => (s.side r).endpoint = e ∧ ¬(s.side (peer r)).endpoint.Left)
    ?_ ⟨rfl, ho _⟩
  rintro x e a e' ⟨rfl, hpeer⟩ hstep
  obtain ⟨hstep, ha⟩ := Machine.restrict_step.mp hstep
  let y : Link :=
    { side := Function.update x.side r ((x.side r).record a e')
      wire := Function.update x.wire (peer r)
        (x.wire (peer r) ++ (x.side r).endpoint.output a) }
  have hr : y.side r = (x.side r).record a e' := by simp [y]
  have hp : y.side (peer r) = x.side (peer r) := by simp [y]
  have hlocal : a.isLocal (x.side (peer r)).endpoint.opened = true := by
    cases a <;> first | rfl | cases ha
  have hlink : x.step sockfd (.act r a) = some y := by
    rw [Link.step, if_pos hlocal, show Endpoint.step _ _ _ _ = _ from hstep]
    rfl
  refine ⟨.act r a, y, Machine.restrict_step.mpr ⟨hlink, ha⟩, ⟨by rw [hr]; rfl, by rwa [hp]⟩,
    fun hs => ⟨⟨r, ?_⟩, fun q => ?_⟩⟩
  · rw [sent, sent, hr, Side.record, if_pos hs, List.length_append]
    exact Nat.lt_succ_self _
  · rcases eq_or_eq_peer q r with rfl | rfl
    · rw [hr]
      exact Endpoint.not_left_of_sends hs
    · rwa [hp]

theorem sent_step {a : LinkAct} (hstep : s.step sockfd a = some t) (r : Role) :
    s.sent r ≤ t.sent r := by
  cases a with
  | act q a =>
    obtain ⟨e, -, hside, -⟩ := step_act hstep
    rcases eq_or_eq_peer r q with rfl | rfl
    · simp only [sent, hside, Function.update_self, Side.record]
      split <;> simp
    · simp [sent, hside]
  | deliver q k =>
    obtain ⟨e, -, hside, -⟩ := step_deliver hstep
    rcases eq_or_eq_peer r q with rfl | rfl <;> simp [sent, hside]

/-- The next message is at most thirteen steps away. -/
theorem Going.spoken (h : s.Going) (ho : s.Open) (hfd : ∀ r, sockfd r < 2 ^ 31) :
    (smoothly sockfd).Within Spoken 13 s := by
  obtain ⟨r, hbusy | hwire⟩ := h.lively
  · exact (spoken_of_speaks ho (h.speaks ho (hfd r) hbusy)).mono (by decide)
  · let e := { (s.side r).endpoint with rcvq := (s.side r).endpoint.rcvq ++ s.wire r }.mark EPOLLIN
    let t : Link :=
      { side := Function.update s.side r { s.side r with endpoint := e }
        wire := Function.update s.wire r [] }
    have hstep : s.step sockfd (.deliver r (s.wire r).length) = some t := by
      simp [Link.step, Endpoint.step, hwire, t, e]
    have hr : (t.side r).endpoint = e := by simp [t]
    have hp : t.side (peer r) = s.side (peer r) := by simp [t]
    have hopen : t.Open := by
      intro q
      rcases eq_or_eq_peer q r with rfl | rfl
      · rw [hr, Endpoint.left_congr rfl rfl]
        exact ho q
      · rw [hp]
        exact ho _
    have hbusy : (t.side r).endpoint.Busy r := Or.inr (Or.inr (Or.inr (by simp [hr, e, hwire])))
    have hgoing : t.Going := h.step (a := .deliver r (s.wire r).length) trivial hstep
    exact .later (a := .deliver r (s.wire r).length) (Machine.restrict_step.mpr ⟨hstep, rfl⟩)
      (spoken_of_speaks hopen (hgoing.speaks hopen (hfd r) hbusy))

theorem sent_run {tr : List LinkAct} (hrun : (pingPong sockfd).Run s tr t) (r : Role) :
    s.sent r ≤ t.sent r := by
  induction hrun with
  | nil => exact le_rfl
  | snoc _ hstep ih => exact ih.trans (sent_step hstep r)

/-- How many messages there have been. -/
def messages (s : Link) : ℕ := s.sent .taskThread + s.sent .test

theorem Going.next (h : s.Going) (ho : s.Open) (hfd : ∀ r, sockfd r < 2 ^ 31) :
    ∃ tr t, tr.length ≤ 13 ∧ (smoothly sockfd).Run s tr t ∧ t.Open ∧
      s.messages < t.messages := by
  obtain ⟨tr, a, t, u, hlen, hrun, hstep, ⟨r, hr⟩, hopen⟩ := (h.spoken ho hfd).exists_run
  refine ⟨tr ++ [a], u, by simpa using hlen, hrun.snoc hstep, hopen, ?_⟩
  have hstep' := (Machine.restrict_step.mp hstep).1
  have hother := (sent_run hrun.of_restrict (peer r)).trans (sent_step hstep' (peer r))
  have hsame := sent_run hrun.of_restrict r
  cases r <;> simp only [messages, peer] at * <;> omega

end Link
end EpollThreads.Connection
