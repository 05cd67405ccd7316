import EpollThreads.Connection.Turns

/-!
# A connection whose peer has not closed

Without end of stream and errors a socket is ready in its two directions only. So
every report names one of them, a report for reading finds a byte in the queue, and
no handler gets to `iError` of itself.
-/

namespace EpollThreads.Connection

open Foundations Events

/-- The flags that call `iError`. -/
def troubled : BitVec 32 := EPOLLHUP ||| EPOLLERR ||| EPOLLRDHUP

namespace Endpoint

variable {role : Role} {sockfd : ℕ} {e e' : Endpoint} {a : EndpointAct}

/-- What a stage relies on before the connection is being closed. -/
def CalmStage (e : Endpoint) (events : BitVec 32) (stage : Stage) : Prop :=
  ¬Leaving stage → has events troubled = false ∧ e.mask.isSome ∧
    ∀ r, stage = .recvn r → r.str = [] → e.rcvq ≠ []

/-- The peer has not closed, and what was reported was there. -/
structure Calm (e : Endpoint) : Prop where
  eof : e.eof = false
  reset : e.reset = false
  mask : ∀ m, e.mask = some m → has m EPOLLIN = true ∨ has m EPOLLOUT = true
  reported : ∀ events, e.pc = .reported events → has events troubled = false ∧
    (has events EPOLLIN = true ∨ has events EPOLLOUT = true) ∧
      (has events EPOLLIN = true → e.rcvq ≠ [])
  stage : ∀ events stage, e.pc = .handling events stage → e.CalmStage events stage

theorem calmStage_of_leaving {events : BitVec 32} {stage : Stage} (h : Leaving stage) :
    e.CalmStage events stage := fun hn => absurd h hn

theorem calmStage_afterRead {events : BitVec 32} {nRet : ℤ} (hev : has events troubled = false)
    (hm : e.mask.isSome) : ∀ stage ∈ afterRead events nRet, e.CalmStage events stage := by
  intro stage hs
  rcases afterRead_cases events nRet with ⟨-, he⟩ | ⟨-, he⟩ <;> rw [he] at hs
  · obtain rfl := Option.some.inj hs
    exact fun _ => ⟨hev, hm, nofun⟩
  · exact calmStage_of_leaving (leaving_afterWrite stage hs)

namespace Calm

/-- A step that leaves the worker and the mask alone and takes nothing from the queue. -/
theorem keep (h : e.Calm) (hpc : e'.pc = e.pc) (hm : e'.mask = e.mask)
    (hq : e.rcvq ≠ [] → e'.rcvq ≠ []) (heof : e'.eof = e.eof) (hreset : e'.reset = e.reset) :
    e'.Calm where
  eof := heof ▸ h.eof
  reset := hreset ▸ h.reset
  mask m hm' := h.mask m (hm ▸ hm')
  reported events hp := by
    obtain ⟨hev, hdir, hin⟩ := h.reported events (hpc ▸ hp)
    exact ⟨hev, hdir, fun hi => hq (hin hi)⟩
  stage events stage hp hl := by
    obtain ⟨hev, hsome, hr⟩ := h.stage events stage (hpc ▸ hp) hl
    exact ⟨hev, hm ▸ hsome, fun r hs hstr => hq (hr r hs hstr)⟩

theorem resume (heof : e.eof = false) (hreset : e.reset = false)
    (hmask : ∀ m, e.mask = some m → has m EPOLLIN = true ∨ has m EPOLLOUT = true)
    {events : BitVec 32} {p : Pass} (hstage : ∀ stage ∈ p.stage, e.CalmStage events stage) :
    (e.resume events p).Calm := by
  unfold Endpoint.resume
  cases hp : p.stage with
  | none => exact ⟨heof, hreset, hmask, nofun, nofun⟩
  | some stage =>
    refine ⟨heof, hreset, hmask, nofun, fun events' stage' hpc => ?_⟩
    obtain ⟨rfl, rfl⟩ := EndpointPc.handling.inj hpc
    exact hstage _ hp

theorem ready_eq (h : e.Calm) : e.ready =
    (if e.readable then EPOLLIN else 0) ||| (if e.writable then EPOLLOUT else 0) := by
  simp [Endpoint.ready, h.eof, h.reset]

theorem not_troubled (h : e.Calm) (m : BitVec 32) : has (e.ready &&& m) troubled = false := by
  have hready : e.ready &&& troubled = 0#32 := by
    rw [h.ready_eq]
    split_ifs <;> decide
  have hm : e.ready &&& m &&& troubled = 0#32 := by
    rw [BitVec.and_assoc, BitVec.and_comm m, ← BitVec.and_assoc, hready, BitVec.zero_and]
  simp [has, hm]

/-- A socket without end of stream and errors is ready in the two directions only. -/
theorem direction (h : e.Calm) {m : BitVec 32} (hne : e.ready &&& m ≠ 0) :
    has (e.ready &&& m) EPOLLIN = true ∨ has (e.ready &&& m) EPOLLOUT = true := by
  have hready : e.ready &&& (EPOLLIN ||| EPOLLOUT) = e.ready := by
    rw [h.ready_eq]
    split_ifs <;> decide
  by_contra hc
  obtain ⟨hin, hout⟩ := not_or.mp hc
  have hin' : e.ready &&& m &&& EPOLLIN = 0#32 := by simpa [has] using hin
  have hout' : e.ready &&& m &&& EPOLLOUT = 0#32 := by simpa [has] using hout
  apply hne
  rw [← hready, BitVec.and_assoc, BitVec.and_comm _ m, ← BitVec.and_assoc,
    BitVec.and_or_distrib_left, hin', hout']
  rfl

theorem rcvq_of_ready (h : e.Calm) {m : BitVec 32} (hin : has (e.ready &&& m) EPOLLIN = true) :
    e.rcvq ≠ [] := by
  intro hq
  have hread : e.readable = false := by simp [readable, hq, h.eof, h.reset]
  have hready : e.ready &&& EPOLLIN = 0#32 := by rw [ready_in, hread]; rfl
  have hz : e.ready &&& m &&& EPOLLIN = 0#32 := by
    rw [BitVec.and_assoc, BitVec.and_comm m, ← BitVec.and_assoc, hready, BitVec.zero_and]
  simp [has, hz] at hin

theorem recv (h : e.Calm) (hw : e.Wf) {events : BitVec 32} {r : Recvn} {res : RecvResult}
    {errno : ℤ} {rcvq : List Byte} (hpc : e.pc = .handling events (.recvn r)) (ha : r.Admits res)
    (hq : e.rcvq = received res ++ rcvq) :
    ({ e with rcvq := rcvq }.resume events
      (Stage.ofRecvn events e.nRet (r.recv res errno))).Calm := by
  obtain ⟨hfill, -⟩ := (hw.stage _ _ hpc).1
  obtain ⟨hev, hsome, hr⟩ := h.stage _ _ hpc id
  refine resume (e := { e with rcvq := rcvq }) h.eof h.reset h.mask ?_
  rcases ofRecvn_cases hfill ha errno events e.nRet with
    ⟨r', -, hstr, hp⟩ | ⟨-, hp⟩ | ⟨-, hp⟩ <;> rw [hp]
  · intro stage hs
    obtain rfl := Option.some.inj hs
    refine fun _ => ⟨hev, hsome, fun r₁ he hnil => ?_⟩
    obtain rfl := Stage.recvn.inj he
    rw [hstr, List.append_eq_nil_iff] at hnil
    have hqueue := hr r rfl hnil.1
    rwa [hq, hnil.2] at hqueue
  · intro stage hs
    obtain rfl := Option.some.inj hs
    exact fun _ => ⟨hev, hsome, nofun⟩
  · exact calmStage_afterRead hev hsome

theorem send (h : e.Calm) (hw : e.Wf) {events : BitVec 32} {s : Sendn} {res : SendResult}
    {errno : ℤ} {room : ℕ} (hpc : e.pc = .handling events (.sendn s)) (ha : s.Admits res) :
    ({ e with room := room }.resume events
      (Stage.ofSendn events e.nRet (s.send res errno))).Calm := by
  have hsend := (hw.stage _ _ hpc).1
  obtain ⟨hev, hsome, -⟩ := h.stage _ _ hpc id
  refine resume (e := { e with room := room }) h.eof h.reset h.mask ?_
  rcases ofSendn_cases hsend ha errno events e.nRet with
    ⟨s', -, hp⟩ | ⟨-, -, hp⟩ | hp <;> rw [hp] <;> intro stage hs
  · obtain rfl := Option.some.inj hs
    exact fun _ => ⟨hev, hsome, nofun⟩
  · obtain rfl := Option.some.inj hs
    exact fun _ => ⟨hev, hsome, nofun⟩
  · exact calmStage_of_leaving (leaving_afterWrite stage hs)

theorem changeMode (h : e.Calm) {events : BitVec 32} {stage : Stage} {ok : Bool} {mode : Mode}
    {p : Pass} (hpc : e.pc = .handling events stage) (hl : ¬Leaving stage)
    (hdir : has (changeModeEvents mode .edgeTriggered) EPOLLIN = true ∨
      has (changeModeEvents mode .edgeTriggered) EPOLLOUT = true)
    (hp : ∀ e₁ : Endpoint, e₁.mask.isSome → ∀ stage ∈ p.stage, e₁.CalmStage events stage) :
    ((if ok then e.install (changeModeEvents mode .edgeTriggered)
      else e).resume events p).Calm := by
  cases ok with
  | false => exact resume h.eof h.reset h.mask (hp e (h.stage _ _ hpc hl).2.1)
  | true =>
    refine resume (e := e.install _) h.eof h.reset (fun m hm => ?_) (hp _ rfl)
    obtain rfl := Option.some.inj hm
    exact hdir

theorem step (h : e.Calm) (hw : e.Wf) (ht : Transition role sockfd e a e') (hfin : a ≠ .fin)
    (hreset : a ≠ .reset) : e'.Calm := by
  cases ht with
  | fin => exact absurd rfl hfin
  | reset => exact absurd rfl hreset
  | arrive hne => exact h.keep rfl rfl (by simp [hne]) rfl rfl
  | drainEmpty | drain | wake | skip => exact h.keep rfl rfl id rfl rfl
  | add ho hm hpc =>
    refine ⟨h.eof, h.reset, fun m hm' => ?_, by simp [hpc], by simp [hpc]⟩
    obtain rfl := Option.some.inj hm'
    cases role <;> decide
  | report hpc hm hne =>
    refine ⟨h.eof, h.reset, h.mask, fun events he => ?_, nofun⟩
    obtain rfl := EndpointPc.reported.inj he
    exact ⟨h.not_troubled _, h.direction hne, h.rcvq_of_ready⟩
  | @begin events nRet hpc =>
    obtain ⟨hev, hdir, hin⟩ := h.reported events hpc
    obtain ⟨m, hm, -⟩ := hw.reported events hpc
    refine resume h.eof h.reset h.mask ?_
    unfold beginEvent
    split
    · intro stage hs
      obtain rfl := Option.some.inj hs
      exact fun _ => ⟨hev, by simp [hm], fun _ _ _ => hin ‹_›⟩
    · exact calmStage_afterRead hev (by simp [hm])
  | recv hpc ha hq => exact h.recv hw hpc ha hq
  | @changeToWrite events ok e₁ hpc hm he =>
    subst he
    exact h.changeMode hpc id (by decide) fun _ => calmStage_afterRead (h.stage _ _ hpc id).1
  | format hpc =>
    obtain ⟨hev, hsome, -⟩ := h.stage _ _ hpc id
    refine resume h.eof h.reset h.mask fun stage hs => ?_
    obtain rfl := Option.some.inj hs
    exact fun _ => ⟨hev, hsome, nofun⟩
  | send hpc ha => exact h.send hw hpc ha
  | @changeToRead events ok e₁ hpc hm he =>
    subst he
    exact h.changeMode hpc id (by decide) fun _ _ stage hs =>
      calmStage_of_leaving (leaving_afterWrite stage hs)
  | error =>
    exact resume h.eof h.reset h.mask fun stage hs => calmStage_of_leaving
      (Option.some.inj hs ▸ trivial)
  | @del events ok e₁ hpc he =>
    subst he
    have hleave : ∀ e₁ : Endpoint, ∀ stage ∈ some (Stage.close ok), e₁.CalmStage events stage :=
      fun _ stage hs => calmStage_of_leaving (Option.some.inj hs ▸ trivial)
    cases ok with
    | false => exact resume h.eof h.reset h.mask (hleave _)
    | true =>
      exact resume (e := { e with mask := none, pending := false }) h.eof h.reset nofun (hleave _)
  | close =>
    refine resume (e := { e with mask := none, pending := false, opened := false }) h.eof h.reset
      nofun fun stage hs => calmStage_of_leaving ?_
    cases role with
    | taskThread => exact Option.some.inj hs ▸ trivial
    | test => cases hs
  | dec => exact resume h.eof h.reset h.mask nofun

theorem of_start (h : e.Start) (heof : e.eof = false) (hreset : e.reset = false) : e.Calm :=
  ⟨heof, hreset, by simp [h.mask], by simp [h.pc], by simp [h.pc]⟩

end Calm
end Endpoint
end EpollThreads.Connection
