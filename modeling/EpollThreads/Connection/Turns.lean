import EpollThreads.Connection.Wakeup

/-!
# Whose turn it is at one endpoint

An endpoint will send without reading again when it is registered for writing,
when it is between a read and the end of its reply, or before the server's
first registration. Only a read that returns data makes an endpoint active, and
only a message that is sent ends its turn.
-/

namespace EpollThreads.Connection

open Foundations Events

/-- Between a read and the end of the reply to it. -/
def Replying : Stage → Prop
  | .changeToWrite | .format | .sendn _ => True
  | _ => False

/-- On the way to the `close`, or past it. -/
def Leaving : Stage → Prop
  | .iError | .del | .close _ | .dec => True
  | _ => False

/-- Registered for writing, or about to be for the first time. -/
def WritesNext (role : Role) : Option (BitVec 32) → Prop
  | some m => has m EPOLLOUT = true
  | none => firstMode role = .write

theorem leaving_afterWrite {events : BitVec 32} {nRet : ℤ} :
    ∀ stage ∈ afterWrite events nRet, Leaving stage := by
  unfold afterWrite afterError
  split_ifs <;> simp [Leaving]

theorem afterRead_cases (events : BitVec 32) (nRet : ℤ) :
    (has events EPOLLOUT = true ∧ afterRead events nRet = some .format) ∨
      (has events EPOLLOUT = false ∧ afterRead events nRet = afterWrite events nRet) := by
  unfold afterRead
  cases has events EPOLLOUT <;> simp

theorem Leaving.not_replying {stage : Stage} (h : Leaving stage) : ¬Replying stage := by
  cases stage <;> first | exact id | exact h.elim

namespace Endpoint

variable {role : Role} {sockfd : ℕ} {e e' : Endpoint} {a : EndpointAct}

/-- The bytes a step hands to the kernel. -/
def output (e : Endpoint) : EndpointAct → List Byte
  | .handle (.send res _) =>
      match e.pc with
      | .handling _ (.sendn s) => s.accepted res
      | _ => []
  | _ => []

/-- The bytes a step takes from the kernel. -/
def input : EndpointAct → List Byte
  | .handle (.recv res _) => received res
  | _ => []

/-- What the `recvn` in progress has stored. -/
def got (e : Endpoint) : List Byte :=
  match e.pc with
  | .handling _ (.recvn r) => r.str
  | _ => []

/-- The endpoint is closed or will be, whatever happens. -/
def Gone (e : Endpoint) : Prop :=
  match e.pc with
  | .handling _ stage => e.opened = false ∨ Leaving stage
  | _ => e.opened = false

/-- The next message needs no further read. -/
def Active (role : Role) (e : Endpoint) : Prop :=
  match e.pc with
  | .handling _ stage => Replying stage
  | _ => e.opened = true ∧ WritesNext role e.mask

/-- A read has just returned data. -/
def reads (e e' : Endpoint) : Bool :=
  match e.pc, e'.pc with
  | .handling _ (.recvn _), .handling _ .changeToWrite => true
  | _, _ => false

/-- A message has just been handed to the kernel completely. -/
def sends (e e' : Endpoint) : Bool :=
  match e.pc, e'.pc with
  | .handling _ (.sendn _), .handling _ .changeToRead => true
  | _, _ => false

/-- The message is out and the change back to reading is next. -/
def sentAll (e : Endpoint) : Bool :=
  match e.pc with
  | .handling _ .changeToRead => true
  | _ => false

theorem active_handling {events : BitVec 32} {stage : Stage}
    (h : e.pc = .handling events stage) : e.Active role ↔ Replying stage := by
  simp [Active, h]

theorem active_waiting (h : ∀ events stage, e.pc ≠ .handling events stage) :
    e.Active role ↔ e.opened = true ∧ WritesNext role e.mask := by
  cases hp : e.pc with
  | handling events stage => exact (h _ _ hp).elim
  | _ => simp [Active, hp]

theorem active_congr (hpc : e'.pc = e.pc) (hm : e'.mask = e.mask) (ho : e'.opened = e.opened) :
    e'.Active role ↔ e.Active role := by
  simp [Active, hpc, hm, ho]

theorem active_resume {events : BitVec 32} {p : Pass} (h : (e.resume events p).Active role) :
    (∃ stage, p.stage = some stage ∧ Replying stage) ∨
      (p.stage = none ∧ e.opened = true ∧ WritesNext role e.mask) := by
  cases hp : p.stage with
  | none => exact Or.inr ⟨rfl, by simpa [Active, resume, hp] using h⟩
  | some stage => exact Or.inl ⟨stage, rfl, by simpa [Active, resume, hp] using h⟩

theorem not_replying_afterWrite {events : BitVec 32} {nRet : ℤ} {stage : Stage}
    (h : afterWrite events nRet = some stage) : ¬Replying stage :=
  (leaving_afterWrite stage h).not_replying

theorem active_begin (hw : e.Wf) {events : BitVec 32} {nRet : ℤ} (hpc : e.pc = .reported events)
    (h : (e.resume events ⟨beginEvent events nRet, nRet⟩).Active role) : e.Active role := by
  obtain ⟨m, hm, hf⟩ := hw.reported events hpc
  rw [active_waiting (by simp [hpc]), hm]
  rcases active_resume h with ⟨stage, hs, hrep⟩ | ⟨-, ho, hwn⟩
  · unfold beginEvent at hs
    split at hs
    · obtain rfl := Option.some.inj hs
      exact hrep.elim
    · rcases afterRead_cases events nRet with ⟨hout, -⟩ | ⟨-, he⟩
      · exact ⟨(hw.mask m hm).1, hf _ hout⟩
      · exact (not_replying_afterWrite (he ▸ hs) hrep).elim
  · exact ⟨ho, hm ▸ hwn⟩

theorem reads_of_recv (hw : e.Wf) {events : BitVec 32} {r : Recvn} {res : RecvResult} {errno : ℤ}
    {rcvq : List Byte} (hpc : e.pc = .handling events (.recvn r)) (ha : r.Admits res)
    (h : ({ e with rcvq := rcvq }.resume events
      (Stage.ofRecvn events e.nRet (r.recv res errno))).Active role) :
    e.reads ({ e with rcvq := rcvq }.resume events
      (Stage.ofRecvn events e.nRet (r.recv res errno))) = true := by
  obtain ⟨hfill, hout⟩ := (hw.stage _ _ hpc).1
  rcases ofRecvn_cases hfill ha errno events e.nRet with ⟨r', -, -, hp⟩ | ⟨-, hp⟩ | ⟨-, hp⟩ <;>
    rw [hp] at h ⊢
  · exact absurd h id
  · simp [reads, hpc, resume]
  · rcases afterRead_cases events (-1) with ⟨hc, -⟩ | ⟨-, he⟩
    · simp [hc] at hout
    · obtain ⟨stage, hs⟩ := afterWrite_neg events
      rw [he, hs] at h
      exact (not_replying_afterWrite hs ((active_handling rfl).mp h)).elim

/-- An endpoint becomes active only by a read that returns data. -/
theorem active_step (hw : e.Wf) (ht : Transition role sockfd e a e')
    (hback : e.sentAll = true → a ≠ .handle (.mod false))
    (h : e'.Active role) : e.Active role ∨ e.reads e' = true := by
  cases ht with
  | arrive | fin | reset | drainEmpty | drain | wake | skip =>
    exact Or.inl ((active_congr rfl rfl rfl).mp h)
  | add ho hm hpc =>
    left
    rw [active_waiting (by simp [hpc])]
    refine ⟨ho, ?_⟩
    have hadd := ((active_waiting (e := e.install _) (by simp [install, hpc])).mp h).2
    rw [hm]
    cases role with
    | taskThread => rfl
    | test => exact absurd hadd (by simp [install, WritesNext, firstMode]; decide)
  | report hpc hm =>
    left
    rw [active_waiting (by simp [hpc])]
    exact (active_waiting (e := { e with pending := false, pc := .reported _ }) (by simp)).mp h
  | begin hpc => exact Or.inl (active_begin hw hpc h)
  | recv hpc ha => exact Or.inr (reads_of_recv hw hpc ha h)
  | changeToWrite hpc => exact Or.inl ((active_handling hpc).mpr trivial)
  | format hpc => exact Or.inl ((active_handling hpc).mpr trivial)
  | send hpc => exact Or.inl ((active_handling hpc).mpr trivial)
  | @changeToRead events ok e₁ hpc hm he =>
    cases ok with
    | false => exact (hback (by simp [sentAll, hpc]) rfl).elim
    | true =>
      subst he
      rcases active_resume h with ⟨stage, hs, hrep⟩ | ⟨-, -, hwn⟩
      · exact (not_replying_afterWrite hs hrep).elim
      · exact absurd hwn (by simp [install, WritesNext]; decide)
  | error => exact absurd h id
  | del => exact absurd h id
  | close =>
    rcases active_resume h with ⟨stage, hs, hrep⟩ | ⟨-, ho, -⟩
    · cases role
      · exact absurd hrep (Option.some.inj hs ▸ id)
      · simp at hs
    · simp at ho
  | dec hpc =>
    rcases active_resume h with ⟨stage, hs, -⟩ | ⟨-, ho, -⟩
    · simp at hs
    · simp [(hw.stage _ _ hpc).2 rfl] at ho

/-- Sending a message takes an active endpoint and ends its turn. -/
theorem sends_iff (h : e.sends e' = true) : e.Active role ∧ ¬e'.Active role := by
  unfold sends at h
  split at h
  · rename_i hpc hpc'
    exact ⟨(active_handling hpc).mpr trivial, (active_handling hpc').not.mpr id⟩
  · simp at h

theorem reads_of_sends (h : e.sends e' = true) : e.reads e' = false := by
  unfold sends at h
  split at h
  · rename_i hpc hpc'
    simp [reads, hpc]
  · simp at h

theorem reads_step (hw : e.Wf) (ht : Transition role sockfd e a e') (h : e.reads e' = true) :
    e.got ++ input a ≠ [] := by
  unfold reads at h
  split at h
  · rename_i events r hpc hpc'
    cases ht with
    | @recv events' r' res errno rcvq hpc₀ ha hq =>
      have hgot : e.got = r'.str := by simp [got, hpc₀]
      rw [hgot]
      obtain ⟨hfill, hout⟩ := (hw.stage _ _ hpc₀).1
      rcases ofRecvn_cases hfill ha errno events' e.nRet with ⟨_, -, -, hp⟩ | ⟨hne, -⟩ | ⟨-, hp⟩
      · simp [hp] at hpc'
      · exact hne
      · rw [hp] at hpc'
        unfold afterRead afterWrite afterError at hpc'
        split_ifs at hpc' <;> simp at hpc'
    | _ => simp_all
  · simp at h

/-- Something is left to do here: to write, to close, or to read. -/
def Busy (role : Role) (e : Endpoint) : Prop :=
  e.Gone ∨ e.Active role ∨ e.got ≠ [] ∨ e.rcvq ≠ []

theorem gone_resume_some {events : BitVec 32} {stage : Stage} {nRet : ℤ} (h : Leaving stage) :
    (e.resume events ⟨some stage, nRet⟩).Gone := Or.inr h

theorem gone_of_opened (h : e.opened = false) : e.Gone := by
  unfold Gone
  split
  · exact Or.inl h
  · exact h

theorem active_resume_some {events : BitVec 32} {stage : Stage} {nRet : ℤ} (h : Replying stage) :
    (e.resume events ⟨some stage, nRet⟩).Active role := h

theorem active_resume_none {events : BitVec 32} {nRet : ℤ} (ho : e.opened = true)
    (hm : WritesNext role e.mask) : (e.resume events ⟨none, nRet⟩).Active role := ⟨ho, hm⟩

theorem busy_afterRead (events : BitVec 32) (nRet : ℤ) (h : nRet < 0 ∨ WritesNext role e.mask) :
    (e.resume events ⟨afterRead events nRet, nRet⟩).Busy role := by
  by_cases ho : e.opened = true
  · rcases afterRead_cases events nRet with ⟨-, hp⟩ | ⟨-, hp⟩
    · rw [hp]
      exact Or.inr (Or.inl (active_resume_some trivial))
    · rw [hp]
      cases hs : afterWrite events nRet with
      | some stage => exact Or.inl (gone_resume_some (leaving_afterWrite stage hs))
      | none =>
        rcases h with hneg | hm
        · unfold afterWrite afterError at hs
          split_ifs at hs
        · exact Or.inr (Or.inl (active_resume_none ho hm))
  · exact Or.inl (gone_of_opened (by simpa using ho))

theorem busy_congr (h : e.Busy role) (hpc : e'.pc = e.pc) (hm : e'.mask = e.mask)
    (ho : e'.opened = e.opened) (hq : e.rcvq ≠ [] → e'.rcvq ≠ []) : e'.Busy role := by
  rcases h with h | h | h | h
  · exact Or.inl (by simpa [Gone, hpc, ho] using h)
  · exact Or.inr (Or.inl ((active_congr hpc hm ho).mpr h))
  · exact Or.inr (Or.inr (Or.inl (by simpa [got, hpc] using h)))
  · exact Or.inr (Or.inr (Or.inr (hq h)))

theorem busy_waiting (h : ∀ events stage, e.pc ≠ .handling events stage) :
    e.Busy role ↔ e.opened = false ∨ WritesNext role e.mask ∨ e.rcvq ≠ [] := by
  have hgone : e.Gone ↔ e.opened = false := by
    unfold Gone
    split
    · rename_i hp
      exact (h _ _ hp).elim
    · exact Iff.rfl
  have hgot : e.got = [] := by
    unfold got
    split
    · rename_i hp
      exact (h _ _ hp).elim
    · rfl
  unfold Busy
  rw [hgone, active_waiting h, hgot]
  cases e.opened <;> simp

theorem busy_handling {events : BitVec 32} {stage : Stage} (hpc : e.pc = .handling events stage)
    (hr : ¬Replying stage) (hl : ¬Leaving stage) :
    e.Busy role ↔ e.opened = false ∨ e.got ≠ [] ∨ e.rcvq ≠ [] := by
  simp [Busy, Gone, Active, hpc, hr, hl]

theorem busy_begin (hw : e.Wf) {events : BitVec 32} {nRet : ℤ} (hpc : e.pc = .reported events)
    (h : e.Busy role) : (e.resume events ⟨beginEvent events nRet, nRet⟩).Busy role := by
  obtain ⟨m, hm, hf⟩ := hw.reported events hpc
  rw [busy_waiting (by simp [hpc])] at h
  rcases h with ho | hwn | hq
  · exact Or.inl (gone_of_opened ho)
  · have hout : has m EPOLLOUT = true := by rwa [hm] at hwn
    have hin : has events EPOLLIN = false := by
      by_contra hc
      simp [(hw.mask m hm).2 (hf _ (Bool.eq_true_of_not_eq_false hc))] at hout
    have hb : beginEvent events nRet = afterRead events nRet := by simp [beginEvent, hin]
    rw [hb]
    exact busy_afterRead events nRet (Or.inr hwn)
  · exact Or.inr (Or.inr (Or.inr hq))

/-- What `recv` takes is stored, and answered or given up in the end. -/
theorem busy_recv (hw : e.Wf) {events : BitVec 32} {r : Recvn} {res : RecvResult} {errno : ℤ}
    {rcvq : List Byte} (hpc : e.pc = .handling events (.recvn r)) (ha : r.Admits res)
    (hq : e.rcvq = received res ++ rcvq) (h : e.Busy role) :
    ({ e with rcvq := rcvq }.resume events
      (Stage.ofRecvn events e.nRet (r.recv res errno))).Busy role := by
  obtain ⟨hfill, -⟩ := (hw.stage _ _ hpc).1
  have hgot : e.got = r.str := by simp [got, hpc]
  rcases ofRecvn_cases hfill ha errno events e.nRet with ⟨r', -, hstr, hp⟩ | ⟨-, hp⟩ | ⟨-, hp⟩ <;>
    rw [hp]
  · rw [busy_handling hpc id id, hgot, hq] at h
    rw [@busy_handling _ _ _ (.recvn r') rfl id id]
    have hgot' : ({ e with rcvq := rcvq }.resume events ⟨some (.recvn r'), e.nRet⟩).got =
        r.str ++ received res := by simp [got, hstr]
    rw [hgot']
    simp only [resume_opened, resume_rcvq, ne_eq, List.append_eq_nil_iff] at h ⊢
    tauto
  · exact Or.inr (Or.inl (active_resume_some trivial))
  · exact busy_afterRead events (-1) (Or.inl (by decide))

theorem busy_send (hw : e.Wf) {events : BitVec 32} {s : Sendn} {res : SendResult} {errno : ℤ}
    {room : ℕ} (hpc : e.pc = .handling events (.sendn s)) (ha : s.Admits res) :
    ({ e with room := room }.resume events
        (Stage.ofSendn events e.nRet (s.send res errno))).Busy role ∨
      e.output (.handle (.send res errno)) ≠ [] := by
  have hout : e.output (.handle (.send res errno)) = s.accepted res := by simp [output, hpc]
  rcases ofSendn_cases (hw.stage _ _ hpc).1 ha errno events e.nRet with
    ⟨s', -, hp⟩ | ⟨hacc, hne, -⟩ | hp
  · rw [hp]
    exact Or.inl (Or.inr (Or.inl (active_resume_some trivial)))
  · right
    rw [hout, hacc]
    exact hne
  · obtain ⟨stage, hs⟩ := afterWrite_neg events
    rw [hp, hs]
    exact Or.inl (Or.inl (gone_resume_some (leaving_afterWrite stage hs)))

/-- An endpoint that has nothing left to do after a step has just sent a message. -/
theorem busy_step (hw : e.Wf) (hok : a.CtlOk) (ht : Transition role sockfd e a e')
    (h : e.Busy role) : e'.Busy role ∨ e.output a ≠ [] := by
  cases ht with
  | arrive hne => exact Or.inl (busy_congr h rfl rfl rfl fun _ => by simp [hne])
  | fin | reset | drainEmpty | drain | wake | skip =>
    exact Or.inl (busy_congr h rfl rfl rfl id)
  | add ho hm hpc =>
    left
    rw [busy_waiting (by simp [hpc])] at h ⊢
    refine h.imp id (Or.imp_left fun hwn => ?_)
    rw [hm] at hwn
    cases role with
    | taskThread =>
      simp only [install_mask, WritesNext, firstMode]
      decide
    | test => simp [WritesNext, firstMode] at hwn
  | report hpc hm =>
    left
    rw [busy_waiting (by simp [hpc])] at h
    exact (busy_waiting (e := { e with pending := false, pc := .reported _ }) (by simp)).mpr h
  | begin hpc => exact Or.inl (busy_begin hw hpc h)
  | recv hpc ha hq => exact Or.inl (busy_recv hw hpc ha hq h)
  | changeToWrite hpc hm he =>
    obtain rfl : _ = true := hok
    subst he
    exact Or.inl (busy_afterRead _ 0 (Or.inr (by simp [WritesNext]; decide)))
  | format => exact Or.inl (Or.inr (Or.inl (active_resume_some trivial)))
  | send hpc ha => exact busy_send hw hpc ha
  | changeToRead hpc hm he =>
    left
    obtain rfl : _ = true := hok
    subst he
    rw [busy_handling hpc id id] at h
    have hgot : e.got = [] := by simp [got, hpc]
    rcases h with ho | hg | hq
    · exact Or.inl (gone_of_opened ho)
    · exact (hg hgot).elim
    · exact Or.inr (Or.inr (Or.inr hq))
  | error | del => exact Or.inl (Or.inl (gone_resume_some trivial))
  | close => exact Or.inl (Or.inl (gone_of_opened rfl))
  | dec hpc => exact Or.inl (Or.inl (gone_of_opened ((hw.stage _ _ hpc).2 rfl)))

end Endpoint
end EpollThreads.Connection
