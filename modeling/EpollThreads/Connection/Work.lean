import EpollThreads.Connection.Endpoint
import EpollThreads.Foundations.Potential

/-!
# A worker does not spin

Under edge triggering a connection is reported once for each edge. Each step a
worker makes for it is paid for: by a byte that arrives, by an edge, or by itself
if it is a transfer that has to be repeated. Only a read that got a byte turns the
connection round to writing, so a reply is paid for by that byte.
-/

namespace EpollThreads.Connection

open Foundations Events

namespace EndpointAct

/-- The steps of the worker. -/
def works : EndpointAct → Bool
  | .wait | .begin _ | .handle _ => true
  | _ => false

/-- What can put the connection on the ready list. -/
def edge : EndpointAct → Bool
  | .arrive _ | .fin | .reset | .drain _ | .wake | .add => true
  | _ => false

def retries : EndpointAct → Bool
  | .handle act => act.retries
  | _ => false

/-- How many bytes arrive. -/
def bytes : EndpointAct → ℕ
  | .arrive bytes => bytes.length
  | _ => 0

end EndpointAct

/-- The steps on the way out: `iError`, and the three of `iClose`. -/
def closeWork : ℕ := 4

/-- A report in the read direction, without the bytes. -/
def readWork : ℕ := 3 + closeWork

/-- `iWrite` up to its end: a `send` for each byte, the mode change and the report it may cause. -/
def writeWork : ℕ := 1 + MIN_BUFSZ + (1 + readWork + closeWork)

/-- A report in the write direction. -/
def edgeWork : ℕ := 3 + writeWork

/-- A byte pays for its `recv`, the mode change and the report it may cause. -/
def byteWork : ℕ := 2 + edgeWork

/-- What an action pays in. -/
def EndpointAct.pays (a : EndpointAct) : ℕ :=
  byteWork * a.bytes + (if a.edge then edgeWork else 0) + if a.retries then 1 else 0

def afterReadWork (events : BitVec 32) : ℕ := if has events EPOLLOUT then writeWork else closeWork

/-- The steps left of the handling of an event, and of the reports its mode changes cause. -/
def stageWork (events : BitVec 32) : Stage → ℕ
  | .recvn r => 1 + afterReadWork events + if r.str = [] then 0 else 1 + edgeWork
  | .changeToWrite => 1 + edgeWork + afterReadWork events
  | .format => writeWork
  | .sendn s => s.str.length + (1 + readWork + closeWork)
  | .changeToRead => 1 + readWork + closeWork
  | .iError => closeWork
  | .del => 3
  | .close _ => 2
  | .dec => 1

def EndpointPc.work : EndpointPc → ℕ
  | .idle => 0
  | .reported events => 2 + afterReadWork events
  | .handling events stage => stageWork events stage

/-- What the entry on the ready list will cost. -/
def pendingWork : Option (BitVec 32) → Bool → ℕ
  | some m, true => if has m EPOLLOUT then edgeWork else readWork
  | _, _ => 0

theorem afterReadWork_le (events : BitVec 32) : afterReadWork events ≤ writeWork := by
  unfold afterReadWork
  split
  · exact le_rfl
  · simp only [writeWork, readWork]
    omega

@[simp] theorem pendingWork_false (mask : Option (BitVec 32)) : pendingWork mask false = 0 := by
  cases mask <;> rfl

theorem pendingWork_le (mask : Option (BitVec 32)) (pending : Bool) :
    pendingWork mask pending ≤ edgeWork := by
  unfold pendingWork
  split
  · split
    · exact le_rfl
    · simp only [edgeWork, writeWork]
      omega
  · exact Nat.zero_le _

theorem work_afterWrite (events events' : BitVec 32) (nRet : ℤ) :
    ((afterWrite events nRet).map (stageWork events')).getD 0 ≤ closeWork := by
  unfold afterWrite afterError
  split_ifs <;> simp [stageWork, closeWork]

theorem work_afterRead (events : BitVec 32) (nRet : ℤ) :
    ((afterRead events nRet).map (stageWork events)).getD 0 ≤ afterReadWork events := by
  unfold afterRead afterReadWork
  split
  · exact le_rfl
  · exact work_afterWrite events events nRet

theorem work_beginEvent (events : BitVec 32) (nRet : ℤ) :
    ((beginEvent events nRet).map (stageWork events)).getD 0 ≤ 1 + afterReadWork events := by
  unfold beginEvent
  split
  · simp [stageWork, Recvn.start]
  · exact (work_afterRead events nRet).trans (Nat.le_add_left _ _)

namespace Endpoint

variable {role : Role} {sockfd : ℕ} {e e' : Endpoint} {a : EndpointAct}

def work (e : Endpoint) : ℕ := byteWork * e.rcvq.length + pendingWork e.mask e.pending + e.pc.work

theorem pc_work_resume (events : BitVec 32) (p : Pass) :
    (e.resume events p).pc.work = (p.stage.map (stageWork events)).getD 0 := by
  unfold resume
  cases p.stage <;> rfl

theorem work_resume (events : BitVec 32) (p : Pass) :
    (e.resume events p).work = byteWork * e.rcvq.length + pendingWork e.mask e.pending +
      (p.stage.map (stageWork events)).getD 0 := by
  rw [work, pc_work_resume]
  rfl

theorem work_handling {events : BitVec 32} {stage : Stage} (hpc : e.pc = .handling events stage) :
    e.work = byteWork * e.rcvq.length + pendingWork e.mask e.pending + stageWork events stage := by
  rw [work, hpc]
  rfl

theorem work_mark (flags : BitVec 32) : (e.mark flags).work ≤ e.work + edgeWork := by
  have hle := pendingWork_le e.mask (e.mark flags).pending
  simp only [work, mark_rcvq, mark_pc]
  change _ + pendingWork e.mask (e.mark flags).pending + _ ≤ _
  omega

/-- Bytes that were taken from the queue pay for what they cause. -/
theorem work_recv_data (hw : e.Wf) {events : BitVec 32} {r : Recvn} {bytes rcvq : List Byte}
    {errno : ℤ} (hpc : e.pc = .handling events (.recvn r)) (ha : r.Admits (.data bytes))
    (hq : e.rcvq = bytes ++ rcvq) :
    ({ e with rcvq := rcvq }.resume events
      (Stage.ofRecvn events e.nRet (r.recv (.data bytes) errno))).work + 1 ≤ e.work := by
  obtain ⟨hfill, -⟩ := (hw.stage _ _ hpc).1
  have hne : r.str ++ bytes ≠ [] := List.append_ne_nil_of_right_ne_nil _ ha.1
  have hstage : ((Stage.ofRecvn events e.nRet (r.recv (.data bytes) errno)).stage.map
      (stageWork events)).getD 0 ≤ 1 + afterReadWork events + (1 + edgeWork) := by
    rcases ofRecvn_cases hfill ha errno events e.nRet with
      ⟨r', -, hstr, hp⟩ | ⟨-, hp⟩ | ⟨hnil, -⟩
    · have hne' : r'.str ≠ [] := hstr ▸ hne
      simp [hp, stageWork, hne']
    · simp only [hp, Option.map_some, Option.getD_some, stageWork]
      omega
    · exact absurd hnil hne
  have hlen : 1 ≤ bytes.length := List.length_pos_iff.mpr ha.1
  have hpaid : byteWork * rcvq.length + byteWork ≤ byteWork * e.rcvq.length := by
    rw [hq, List.length_append, ← Nat.mul_succ]
    exact Nat.mul_le_mul_left _ (by omega)
  have hbyte : byteWork = 2 + edgeWork := rfl
  have hold : 1 + afterReadWork events ≤ stageWork events (.recvn r) := Nat.le_add_right _ _
  rw [work_resume, work_handling hpc]
  simp only
  omega

/-- Without a byte the loop goes round again after a signal only. -/
theorem work_recv_none (hw : e.Wf) {events : BitVec 32} {r : Recvn} {res : RecvResult}
    {errno : ℤ} (hpc : e.pc = .handling events (.recvn r)) (hres : res = .eof ∨ res = .fail) :
    (e.resume events (Stage.ofRecvn events e.nRet (r.recv res errno))).work + 1 ≤
      e.work + if errno = EINTR then 1 else 0 := by
  obtain ⟨hfill, -⟩ := (hw.stage _ _ hpc).1
  have hrecv : r.recv res errno = if errno = EINTR then .again r else .done r.result := by
    rcases hres with rfl | rfl <;> rfl
  rw [work_resume, work_handling hpc, hrecv]
  split
  · exact le_rfl
  · have hlen : r.str.length ≤ MIN_BUFSZ := by have := hfill.room; have := hfill.inside; omega
    rw [Recvn.Filling.result hfill.nLen hfill.room hlen]
    have hback := work_afterRead events (-1)
    cases hstr : r.str with
    | nil =>
      simp only [Stage.ofRecvn, List.length_nil, Nat.cast_zero, le_refl, if_true, stageWork, hstr]
      omega
    | cons b str =>
      have hpos : ¬((b :: str).length : ℤ) ≤ 0 := by simp
      simp only [Stage.ofRecvn, if_neg hpos, Option.map_some, Option.getD_some, stageWork, hstr,
        reduceCtorEq, if_false]
      omega

theorem work_send (hw : e.Wf) {events : BitVec 32} {s : Sendn} {res : SendResult} {errno : ℤ}
    {room : ℕ} (hpc : e.pc = .handling events (.sendn s)) (ha : s.Admits res) :
    ({ e with room := room }.resume events (Stage.ofSendn events e.nRet (s.send res errno))).work +
      1 ≤ e.work + if (HandlerAct.send res errno).retries then 1 else 0 := by
  have hsend : s.Sending := (hw.stage _ _ hpc).1
  rw [work_resume, work_handling hpc]
  cases res with
  | sent k =>
    rcases hsend.send ha errno with ⟨k', hk, hpos, hle, ⟨hagain, -⟩ | ⟨rfl, hdone, hn⟩⟩ | ⟨hf, -⟩
    · obtain rfl := SendResult.sent.inj hk
      simp only [hagain, Stage.ofSendn, Option.map_some, Option.getD_some, stageWork,
        List.length_drop]
      omega
    · have hneg : ¬(s.nLen : ℤ) ≤ 0 := by omega
      simp only [hdone, Stage.ofSendn, if_neg hneg, Option.map_some, Option.getD_some, stageWork]
      omega
    · cases hf
  | fail =>
    have hfail : s.send .fail errno = if errno = EINTR then .again s else .done (-1) := rfl
    rw [hfail]
    by_cases hsignal : errno = EINTR
    · simp [hsignal, Stage.ofSendn, HandlerAct.retries]
    · have hback := work_afterWrite events events (-1)
      have hneg : (-1 : ℤ) ≤ 0 := by decide
      simp only [if_neg hsignal, Stage.ofSendn, if_pos hneg, stageWork]
      omega

theorem work_report {m : BitVec 32} (hpc : e.pc = .idle) (hm : e.mask = some m)
    (hp : e.pending = true) :
    ({ e with pending := false, pc := .reported (e.ready &&& m) } : Endpoint).work + 1 ≤
      e.work := by
  have hreport : 3 + afterReadWork (e.ready &&& m) ≤ pendingWork e.mask e.pending := by
    rw [hm, hp, afterReadWork]
    by_cases hout : has m EPOLLOUT = true
    · simp only [pendingWork, hout, if_true, edgeWork, writeWork]
      split <;> omega
    · have hout' : has (e.ready &&& m) EPOLLOUT = false :=
        Bool.eq_false_iff.mpr fun h => hout (has_of_and h)
      simp [pendingWork, hout, hout', readWork]
  simp only [work, hpc, EndpointPc.work, pendingWork_false]
  omega

theorem work_stage {e₁ : Endpoint} {events : BitVec 32} {stage : Stage} {p : Pass}
    (hpc : e.pc = .handling events stage) (hq : e₁.rcvq = e.rcvq)
    (hpending : pendingWork e₁.mask e₁.pending ≤ pendingWork e.mask e.pending)
    (hstage : (p.stage.map (stageWork events)).getD 0 + 1 ≤ stageWork events stage) :
    (e₁.resume events p).work + 1 ≤ e.work := by
  rw [work_resume, work_handling hpc, hq]
  omega

/-- A mode change causes at most one report, in the direction it asks for. -/
theorem work_changeMode {events : BitVec 32} {ok : Bool} {m : BitVec 32} {p : Pass} {w : ℕ}
    (hm : ∀ pending, pendingWork (some m) pending ≤ w)
    (hpass : (p.stage.map (stageWork events)).getD 0 + w + 1 ≤ e.pc.work) :
    ((if ok then e.install m else e).resume events p).work + 1 ≤ e.work := by
  rw [work_resume, work]
  cases ok with
  | false =>
    simp only [Bool.false_eq_true, if_false]
    omega
  | true =>
    have hle := hm (e.install m).pending
    simp only [if_true, install_mask]
    change byteWork * e.rcvq.length + _ + _ + 1 ≤ _
    omega

theorem pending_of_wait (h : e.step role sockfd .wait = some e') : e.pending = true := by
  simp only [step, Option.ite_none_right_eq_some] at h
  exact h.1.2

theorem pays_handle (act : HandlerAct) : (EndpointAct.handle act).pays =
    if act.retries then 1 else 0 := by
  simp only [EndpointAct.pays, EndpointAct.bytes, EndpointAct.edge, Bool.false_eq_true, if_false,
    Nat.mul_zero, Nat.zero_add]
  rfl

theorem pays_edge (h : a.edge = true) : byteWork * a.bytes + edgeWork ≤ a.pays := by
  simp only [EndpointAct.pays, h, if_true]
  omega

theorem work_handle (hw : e.Wf) {act : HandlerAct}
    (ht : Transition role sockfd e (.handle act) e') :
    e'.work + 1 ≤ e.work + (EndpointAct.handle act).pays := by
  rw [pays_handle]
  cases ht with
  | @recv events r res errno rcvq hpc ha hq =>
    cases res with
    | data bytes => exact work_recv_data hw hpc ha hq
    | eof =>
      obtain rfl : rcvq = e.rcvq := hq.symm
      simpa only [HandlerAct.retries, decide_eq_true_eq] using
        work_recv_none hw hpc (Or.inl rfl)
    | fail =>
      obtain rfl : rcvq = e.rcvq := hq.symm
      simpa only [HandlerAct.retries, decide_eq_true_eq] using
        work_recv_none hw hpc (Or.inr rfl)
  | @changeToWrite events ok e₁ hpc hm he =>
    subst he
    refine work_changeMode (w := edgeWork) (fun pending => pendingWork_le _ pending) ?_
    have hback := work_afterRead events 0
    simp only [hpc, EndpointPc.work, stageWork]
    omega
  | @format events usec hpc hlen =>
    refine work_stage hpc rfl le_rfl ?_
    simp only [Option.map_some, Option.getD_some, stageWork, Sendn.start, writeWork]
    omega
  | send hpc ha => exact work_send hw hpc ha
  | @changeToRead events ok e₁ hpc hm he =>
    subst he
    refine work_changeMode (w := readWork) (fun pending => ?_) ?_
    · cases pending with
      | false => simp
      | true =>
        have hout : has (changeModeEvents .read .edgeTriggered) EPOLLOUT = false := by decide
        simp [pendingWork, hout]
    · have hback := work_afterWrite events events 0
      simp only [hpc, EndpointPc.work, stageWork]
      omega
  | error hpc => exact work_stage hpc rfl le_rfl le_rfl
  | @del events ok e₁ hpc he =>
    subst he
    cases ok with
    | false => exact work_stage hpc rfl le_rfl le_rfl
    | true => exact work_stage hpc rfl (Nat.zero_le _) le_rfl
  | close hpc =>
    refine work_stage hpc rfl (Nat.zero_le _) ?_
    cases role <;> simp [stageWork]
  | dec hpc => exact work_stage hpc rfl le_rfl le_rfl

/-- Every step of the worker is paid for. -/
theorem work_step (hw : e.Wf) (h : e.step role sockfd a = some e') :
    e'.work + (if a.works then 1 else 0) ≤ e.work + a.pays := by
  have ht := step_cases h
  have hle (mask : Option (BitVec 32)) (pending : Bool) := pendingWork_le mask pending
  cases ht with
  | @arrive bytes hne =>
    have hmark := work_mark (e := { e with rcvq := e.rcvq ++ bytes }) EPOLLIN
    have hpaid := pays_edge (a := .arrive bytes) rfl
    simp only [work, List.length_append, Nat.mul_add] at hmark ⊢
    simp only [EndpointAct.works, EndpointAct.bytes, Bool.false_eq_true, if_false] at hpaid ⊢
    omega
  | fin => exact work_mark (e := { e with eof := true }) _
  | reset => exact work_mark (e := { e with reset := true }) _
  | @drainEmpty k hr => exact work_mark (e := { e with room := k }) _
  | drain hr => exact Nat.le_add_right e.work _
  | wake hm =>
    have hpaid := pays_edge (a := .wake) rfl
    have hpending := hle e.mask true
    simp only [work, EndpointAct.works, Bool.false_eq_true, if_false]
    omega
  | add ho hm hpc =>
    have hpaid := pays_edge (a := .add) rfl
    have hpending := hle (some (addEvents (firstMode role) .edgeTriggered))
      (e.install (addEvents (firstMode role) .edgeTriggered)).pending
    simp only [work, install_mask, install_pc, EndpointAct.works, Bool.false_eq_true, if_false]
    change byteWork * e.rcvq.length + _ + _ + 0 ≤ _
    omega
  | skip hpc hm hready =>
    have hpos : 1 ≤ pendingWork e.mask e.pending := by
      rw [hm, pending_of_wait h]
      simp only [pendingWork]
      split <;> exact Nat.le_add_right_of_le (by decide)
    simp only [work, pendingWork_false, EndpointAct.works, if_true]
    omega
  | report hpc hm hready => exact work_report hpc hm (pending_of_wait h)
  | @begin events nRet hpc =>
    have hbegin := work_beginEvent events nRet
    rw [work_resume, work, hpc]
    simp only [EndpointAct.works, EndpointPc.work, if_true]
    omega
  | recv | changeToWrite | format | send | changeToRead | error | del | close | dec =>
    exact work_handle hw (step_cases h)

theorem stageWork_le {events : BitVec 32} {stage : Stage} (h : Fits events stage) :
    stageWork events stage ≤ 2 * edgeWork := by
  have hafter := afterReadWork_le events
  have hclose : 4 ≤ writeWork := by decide
  cases stage with
  | recvn r =>
    simp only [stageWork, edgeWork]
    split <;> omega
  | sendn s =>
    have hlen : s.str.length < MIN_BUFSZ := by
      have := h.nLen; have := h.room; have := h.le; omega
    simp only [stageWork, edgeWork, writeWork]
    omega
  | changeToRead =>
    simp only [stageWork, edgeWork, writeWork]
    omega
  | _ =>
    simp only [stageWork, edgeWork, closeWork]
    omega

theorem work_le (hw : e.Wf) : e.work ≤ byteWork * e.rcvq.length + 3 * edgeWork := by
  have hpending := pendingWork_le e.mask e.pending
  have hpc : e.pc.work ≤ 2 * edgeWork := by
    cases hpc : e.pc with
    | idle => exact Nat.zero_le _
    | reported events =>
      have hafter := afterReadWork_le events
      simp only [EndpointPc.work, edgeWork]
      omega
    | handling events stage => exact stageWork_le (hw.stage _ _ hpc).1
  rw [work]
  omega

end Endpoint

theorem price_pays (tr : List EndpointAct) :
    Machine.price EndpointAct.pays tr = byteWork * (tr.map EndpointAct.bytes).sum +
      edgeWork * tr.countP EndpointAct.edge + tr.countP EndpointAct.retries := by
  induction tr with
  | nil => rfl
  | cons a tr ih =>
    have hcons : Machine.price EndpointAct.pays (a :: tr) =
        a.pays + Machine.price EndpointAct.pays tr := by simp [Machine.price]
    rw [hcons, ih, List.map_cons, List.sum_cons, List.countP_cons, List.countP_cons,
      EndpointAct.pays]
    split_ifs <;> simp only [Nat.mul_add, Nat.mul_one, Nat.add_zero] <;> omega

/-- From wherever a run goes on, the steps of the worker are bounded by the bytes that wait or
arrive, the edges and the transfers that are repeated. -/
theorem work_bounded {role : Role} {sockfd : ℕ} {tr₀ tr : List EndpointAct} {e e' : Endpoint}
    (h : (endpointMachine role sockfd).Reaches tr₀ e)
    (hrun : (endpointMachine role sockfd).Run e tr e') :
    tr.countP EndpointAct.works ≤
      byteWork * (e.rcvq.length + (tr.map EndpointAct.bytes).sum) +
        edgeWork * (tr.countP EndpointAct.edge + 3) + tr.countP EndpointAct.retries := by
  have hw := Endpoint.Wf.of_reaches h
  have hpaid := (hrun.affords (c := fun a => if a.works then 1 else 0) hw fun hw hstep =>
    ⟨hw.step (Endpoint.step_cases hstep), Endpoint.work_step hw hstep⟩).2
  have hle := Endpoint.work_le hw
  rw [Machine.price_eq_countP, price_pays] at hpaid
  rw [Nat.mul_add, Nat.mul_add]
  omega

/-- A connected socket of the client before its registration. -/
def connected : Endpoint := ⟨[], false, false, 4096, none, false, true, -1, .idle⟩

theorem start_connected : connected.Start := ⟨rfl, rfl, rfl, rfl⟩

/-- One byte arrives, is read and answered; a signal interrupts the second `recv`. -/
def oneReply : List EndpointAct :=
  [.add, .arrive [72], .wait, .begin 0, .handle (.recv (.data [72]) 0),
    .handle (.recv .fail EINTR), .handle (.recv .fail EAGAIN), .handle (.mod true), .wait,
    .begin 0, .handle (.format 1), .handle (.send (.sent 19) 0), .handle (.mod true)]

theorem work_bounded_oneReply :
    oneReply.countP EndpointAct.works ≤
      byteWork * (connected.rcvq.length + (oneReply.map EndpointAct.bytes).sum) +
        edgeWork * (oneReply.countP EndpointAct.edge + 3) +
          oneReply.countP EndpointAct.retries :=
  have hreach : (endpointMachine .test 5).Reaches [] connected := ⟨_, start_connected, .nil _⟩
  work_bounded hreach (.of_isSome oneReply rfl)

end EpollThreads.Connection
