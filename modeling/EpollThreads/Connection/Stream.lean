import EpollThreads.Connection.PingPong
import EpollThreads.Foundations.Observation

/-!
# What travels between a server connection and a client connection

Whatever the interleaving, the pieces and the failures, the bytes that one side
has taken from its kernel, those queued there and those on the wire are together
the greetings of the other side, whole and in order, and at most a part of one
more.
-/

namespace EpollThreads.Connection

open Foundations Events

namespace Endpoint

variable {role : Role} {sockfd : ℕ} {e e' : Endpoint} {a : EndpointAct}

/-- The connection is being closed or has been. -/
def Left (e : Endpoint) : Prop :=
  match e.pc with
  | .handling _ stage => Leaving stage
  | _ => e.opened = false

theorem left_handling {events : BitVec 32} {stage : Stage}
    (h : e.pc = .handling events stage) : e.Left ↔ Leaving stage := by
  simp [Left, h]

theorem left_idle (h : e.pc = .idle) : e.Left ↔ e.opened = false := by simp [Left, h]

theorem left_congr (hpc : e'.pc = e.pc) (ho : e'.opened = e.opened) : e'.Left ↔ e.Left := by
  simp [Left, hpc, ho]

theorem Left.step (h : e.Left) (hw : e.Wf) (ht : Transition role sockfd e a e') : e'.Left := by
  cases ht with
  | arrive | fin | reset | drainEmpty | drain | wake | skip => exact (left_congr rfl rfl).mpr h
  | add ho hm hpc =>
    rw [left_idle hpc, ho] at h
    cases h
  | report hpc hm =>
    rw [left_idle hpc, (hw.mask _ hm).1] at h
    cases h
  | begin hpc =>
    obtain ⟨m, hm, -⟩ := hw.reported _ hpc
    rw [Left, hpc] at h
    exact absurd ((hw.mask m hm).1.symm.trans h) (by decide)
  | recv hpc | changeToWrite hpc | format hpc | send hpc | changeToRead hpc =>
    exact ((left_handling hpc).mp h).elim
  | error | del => exact trivial
  | close => cases role <;> [exact trivial; exact rfl]
  | dec hpc => exact (hw.stage _ _ hpc).2 rfl

/-- `out` is what has been handed to the kernel: `k` greetings, and the part of one more that
`sendn` is sending or was sending when it failed. -/
def Framed (role : Role) (sockfd : ℕ) (e : Endpoint) (out : List Byte) (k : ℕ) : Prop :=
  ∃ (usecs : List ℕ) (part : List Byte), usecs.length = k ∧
    out = (usecs.map (message role sockfd)).flatten ++ part ∧
    match e.pc with
    | .handling _ (.sendn s) => ∃ usec, message role sockfd usec = part ++ s.str
    | _ => part = [] ∨ (e.Left ∧ ∃ usec, part <+: message role sockfd usec)

variable {out : List Byte} {k : ℕ}

/-- Outside `sendn` the last message is whole, unless the connection has failed. -/
theorem framed_iff (hpc : ∀ events s, e.pc ≠ .handling events (.sendn s)) :
    Framed role sockfd e out k ↔ ∃ (usecs : List ℕ) (part : List Byte), usecs.length = k ∧
      out = (usecs.map (message role sockfd)).flatten ++ part ∧
      (part = [] ∨ (e.Left ∧ ∃ usec, part <+: message role sockfd usec)) := by
  unfold Framed
  split
  · rename_i events s hp
    exact (hpc events s hp).elim
  · exact Iff.rfl

theorem framed_sendn {events : BitVec 32} {s : Sendn} (hpc : e.pc = .handling events (.sendn s)) :
    Framed role sockfd e out k ↔ ∃ (usecs : List ℕ) (part : List Byte), usecs.length = k ∧
      out = (usecs.map (message role sockfd)).flatten ++ part ∧
      ∃ usec, message role sockfd usec = part ++ s.str := by
  simp only [Framed, hpc]

theorem Framed.keep (h : Framed role sockfd e out k) (hpc : e'.pc = e.pc)
    (ho : e'.opened = e.opened) : Framed role sockfd e' out k := by
  have hleft : e'.Left ↔ e.Left := left_congr hpc ho
  simpa only [Framed, hpc, hleft] using h

theorem Framed.move (h : Framed role sockfd e out k)
    (hpc : ∀ events s, e.pc ≠ .handling events (.sendn s))
    (hpc' : ∀ events s, e'.pc ≠ .handling events (.sendn s)) (hleft : e.Left → e'.Left) :
    Framed role sockfd e' out k := by
  obtain ⟨usecs, part, hk, hout, hpart⟩ := (framed_iff hpc).mp h
  exact (framed_iff hpc').mpr ⟨usecs, part, hk, hout, hpart.imp_right (And.imp_left hleft)⟩

theorem afterWrite_ne_sendn (events : BitVec 32) (nRet : ℤ) (s : Sendn) :
    afterWrite events nRet ≠ some (.sendn s) := fun h => leaving_afterWrite (.sendn s) h

theorem afterRead_ne_sendn (events : BitVec 32) (nRet : ℤ) (s : Sendn) :
    afterRead events nRet ≠ some (.sendn s) := by
  rcases afterRead_cases events nRet with ⟨-, h⟩ | ⟨-, h⟩ <;> rw [h]
  · simp
  · exact afterWrite_ne_sendn _ _ _

theorem beginEvent_ne_sendn (events : BitVec 32) (nRet : ℤ) (s : Sendn) :
    beginEvent events nRet ≠ some (.sendn s) := by
  unfold beginEvent
  split
  · simp
  · exact afterRead_ne_sendn _ _ _

theorem ofRecvn_ne_sendn (events : BitVec 32) (nRet : ℤ) (l : LoopStep Recvn) (s : Sendn) :
    (Stage.ofRecvn events nRet l).stage ≠ some (.sendn s) := by
  cases l with
  | again r => simp [Stage.ofRecvn]
  | done bytes =>
    simp only [Stage.ofRecvn]
    split
    · exact afterRead_ne_sendn _ _ _
    · simp

theorem sends_of_ne_sendn (hpc : ∀ events s, e.pc ≠ .handling events (.sendn s)) :
    e.sends e' = false := by
  unfold sends
  split
  · rename_i hp _
    exact (hpc _ _ hp).elim
  · rfl

theorem sends_of_pc_eq (hpc : e'.pc = e.pc) : e.sends e' = false := by
  unfold sends
  split
  · rename_i hp hp'
    rw [hpc, hp] at hp'
    cases hp'
  · rfl

/-- The loop of `sendn` moves bytes from what is left of its message to the stream. -/
theorem Framed.send {events : BitVec 32} {s : Sendn} {res : SendResult} {errno : ℤ} {room : ℕ}
    (h : Framed role sockfd e out k) (hw : e.Wf) (hpc : e.pc = .handling events (.sendn s))
    (ha : s.Admits res) (he : e' = { e with room := room }.resume events
      (Stage.ofSendn events e.nRet (s.send res errno))) :
    Framed role sockfd e' (out ++ s.accepted res) (k + if e.sends e' then 1 else 0) := by
  obtain ⟨usecs, part, hk, hout, usec, hmsg⟩ := (framed_sendn hpc).mp h
  have hagain : ∀ s', s.send res errno = .again s' →
      e'.pc = .handling events (.sendn s') ∧ e.sends e' = false := by
    intro s' hs
    have hpc' : e'.pc = .handling events (.sendn s') := by rw [he, hs]; rfl
    exact ⟨hpc', by simp [sends, hpc, hpc']⟩
  rcases Sendn.Sending.send (hw.stage _ _ hpc).1 ha errno with
    ⟨nRet, rfl, hpos, hle, ⟨hs, -⟩ | ⟨rfl, hs, hn⟩⟩ | ⟨rfl, hs | hs⟩
  · obtain ⟨hpc', hsends⟩ := hagain _ hs
    rw [hsends]
    refine (framed_sendn hpc').mpr ⟨usecs, part ++ s.str.take nRet, hk, ?_, usec, ?_⟩
    · rw [hout, List.append_assoc]
      rfl
    · rw [hmsg, List.append_assoc, List.take_append_drop]
  · have hpc' : e'.pc = .handling events .changeToRead := by
      have hnlen : ¬(s.nLen : ℤ) ≤ 0 := by omega
      rw [he, hs, Stage.ofSendn, if_neg hnlen]
      rfl
    have hsends : e.sends e' = true := by simp [sends, hpc, hpc']
    rw [hsends]
    refine (framed_iff (by simp [hpc'])).mpr ⟨usecs ++ [usec], [], by simp [hk], ?_, Or.inl rfl⟩
    have hacc : s.accepted (.sent s.str.length) = s.str := List.take_length
    simp [hout, hmsg, hacc]
  · obtain ⟨hpc', hsends⟩ := hagain _ hs
    rw [hsends]
    exact (framed_sendn hpc').mpr
      ⟨usecs, part, hk, by simpa [Sendn.accepted] using hout, usec, hmsg⟩
  · obtain ⟨stage, hstage⟩ := afterWrite_neg events
    have hleaving := leaving_afterWrite stage hstage
    have hpc' : e'.pc = .handling events stage := by
      rw [he, hs]
      simp [Stage.ofSendn, hstage]
    have hne : ∀ events' s', e'.pc ≠ .handling events' (.sendn s') := by
      intro events' s' hc
      obtain ⟨-, rfl⟩ := EndpointPc.handling.inj (hpc'.symm.trans hc)
      exact hleaving
    have hsends : e.sends e' = false := by
      unfold sends
      split
      · rename_i hp
        obtain ⟨-, rfl⟩ := EndpointPc.handling.inj (hpc'.symm.trans hp)
        exact hleaving.elim
      · rfl
    rw [hsends]
    refine (framed_iff hne).mpr ⟨usecs, part, hk, by simpa [Sendn.accepted] using hout, Or.inr ?_⟩
    exact ⟨(left_handling hpc').mpr hleaving, usec, by rw [hmsg]; exact List.prefix_append ..⟩

/-- One step of the sender: its output is appended, and a message that is complete is counted. -/
theorem Framed.step (h : Framed role sockfd e out k) (hw : e.Wf)
    (ht : Transition role sockfd e a e') :
    Framed role sockfd e' (out ++ e.output a) (k + if e.sends e' then 1 else 0) := by
  have hleft : e.Left → e'.Left := fun hl => hl.step hw ht
  have hquiet : e.output a = [] → e.sends e' = false → Framed role sockfd e' out k →
      Framed role sockfd e' (out ++ e.output a) (k + if e.sends e' then 1 else 0) := by
    intro hout hsends hf
    simpa [hout, hsends] using hf
  have hmove : e.output a = [] → (∀ events s, e.pc ≠ .handling events (.sendn s)) →
      (∀ events s, e'.pc ≠ .handling events (.sendn s)) →
      Framed role sockfd e' (out ++ e.output a) (k + if e.sends e' then 1 else 0) :=
    fun hout hpc hpc' => hquiet hout (sends_of_ne_sendn hpc) (h.move hpc hpc' hleft)
  have hresume : ∀ {e₁ : Endpoint} {events p}, (∀ s, p.stage ≠ some (.sendn s)) →
      ∀ events' s, (e₁.resume events p).pc ≠ .handling events' (.sendn s) := by
    intro e₁ events p hp events' s hpc
    unfold Endpoint.resume at hpc
    cases hs : p.stage with
    | none => simp [hs] at hpc
    | some stage =>
      simp only [hs] at hpc
      obtain ⟨-, rfl⟩ := EndpointPc.handling.inj hpc
      exact hp s hs
  cases ht with
  | arrive | fin | reset | drainEmpty | drain | wake | add | skip =>
    exact hquiet rfl (sends_of_pc_eq rfl) (h.keep rfl rfl)
  | report hpc => exact hmove rfl (by simp [hpc]) (by simp)
  | begin hpc => exact hmove rfl (by simp [hpc]) (hresume (beginEvent_ne_sendn _ _))
  | recv hpc => exact hmove rfl (by simp [hpc]) (hresume (ofRecvn_ne_sendn _ _ _))
  | changeToWrite hpc => exact hmove rfl (by simp [hpc]) (hresume (afterRead_ne_sendn _ _))
  | @format events usec hpc hlen =>
    have hne : ∀ events' s, e.pc ≠ .handling events' (.sendn s) := by simp [hpc]
    obtain ⟨usecs, part, hk, hout, hpart⟩ := (framed_iff hne).mp h
    have hnil : part = [] := by
      rcases hpart with hnil | ⟨hl, -⟩
      · exact hnil
      · exact ((left_handling hpc).mp hl).elim
    subst hnil
    refine hquiet rfl (sends_of_ne_sendn hne) ?_
    exact (framed_sendn rfl).mpr ⟨usecs, [], hk, hout, usec, rfl⟩
  | @send events s res errno room hpc ha =>
    have hout : e.output (.handle (.send res errno)) = s.accepted res := by simp [output, hpc]
    rw [hout]
    exact h.send hw hpc ha rfl
  | changeToRead hpc => exact hmove rfl (by simp [hpc]) (hresume (afterWrite_ne_sendn _ _))
  | error hpc | del hpc | dec hpc => exact hmove rfl (by simp [hpc]) (hresume (by simp))
  | close hpc => exact hmove rfl (by simp [hpc]) (hresume (by cases role <;> simp))

theorem Framed.messages (h : Framed role sockfd e out k) :
    ∃ (usecs : List ℕ) (part : List Byte) (usec : ℕ), usecs.length = k ∧
      part <+: message role sockfd usec ∧
      out = (usecs.map (message role sockfd)).flatten ++ part := by
  by_cases hpc : ∃ events x, e.pc = .handling events (.sendn x)
  · obtain ⟨events, x, hpc⟩ := hpc
    obtain ⟨usecs, part, hk, hout, usec, hmsg⟩ := (framed_sendn hpc).mp h
    exact ⟨usecs, part, usec, hk, hmsg ▸ List.prefix_append .., hout⟩
  · simp only [not_exists] at hpc
    obtain ⟨usecs, part, hk, hout, rfl | ⟨-, usec, hp⟩⟩ := (framed_iff hpc).mp h
    · exact ⟨usecs, [], 0, hk, List.nil_prefix, hout⟩
    · exact ⟨usecs, part, usec, hk, hp, hout⟩

theorem rcvq_step (ht : Transition role sockfd e a e') (ha : ∀ bytes, a ≠ .arrive bytes) :
    e.rcvq = input a ++ e'.rcvq := by
  cases ht with
  | arrive => exact (ha _ rfl).elim
  | recv hpc hadm hq => exact hq
  | changeToWrite hpc hm he | changeToRead hpc hm he | del hpc he =>
    subst he
    split <;> rfl
  | _ => rfl

end Endpoint

namespace Link

variable {sockfd : Role → ℕ} {s t : Link}

/-- The bytes that side `r` takes from its kernel. -/
def taken (r : Role) (_ : Link) : LinkAct → Option (List Byte)
  | .act q a => if q = r then some (Endpoint.input a) else none
  | .deliver _ _ => none

/-- All bytes of side `r`, seen from its peer: taken, queued, and on the wire. -/
def stream (r : Role) (s : Link) (taken : List (List Byte)) : List Byte :=
  taken.flatten ++ (s.side (peer r)).endpoint.rcvq ++ s.wire (peer r)

theorem local_of_step {r : Role} {a : EndpointAct} (h : s.step sockfd (.act r a) = some t)
    (bytes : List Byte) : a ≠ .arrive bytes := by
  rintro rfl
  simp [step, EndpointAct.isLocal] at h

/-- The stream of `r` grows by what `r` hands to its kernel, and by nothing else. -/
theorem stream_step {r : Role} {a : LinkAct} (h : s.step sockfd a = some t) (l : List (List Byte)) :
    ∃ out, t.stream r (l ++ (taken (peer r) s a).toList) = s.stream r l ++ out ∧
      ((∃ b e, a = .act r b ∧ out = (s.side r).endpoint.output b ∧
          Endpoint.Transition r (sockfd r) (s.side r).endpoint b e ∧
          t.side r = (s.side r).record b e) ∨
        (out = [] ∧ (t.side r).endpoint.pc = (s.side r).endpoint.pc ∧
          (t.side r).endpoint.opened = (s.side r).endpoint.opened ∧
          (t.side r).ends = (s.side r).ends)) := by
  cases a with
  | act q a =>
    obtain ⟨e, ht, hside, hwire⟩ := step_act h
    rcases eq_or_eq_peer q r with rfl | rfl
    · refine ⟨_, ?_, Or.inl ⟨a, e, rfl, rfl, ht, by simp [hside]⟩⟩
      simp [stream, taken, hside, hwire, (peer_ne q).symm]
    · have hq := Endpoint.rcvq_step ht (local_of_step h)
      refine ⟨[], ?_, Or.inr ?_⟩
      · simp [stream, taken, hside, hwire, Side.record, hq]
      · simp [hside, (peer_ne r).symm]
  | deliver q k =>
    obtain ⟨e, ht, hside, hwire⟩ := step_deliver h
    cases ht with
    | arrive hne =>
      rcases eq_or_eq_peer q r with rfl | rfl
      · refine ⟨[], ?_, Or.inr ?_⟩
        · simp [stream, taken, hside, hwire]
        · simp [hside, Endpoint.mark]
      · refine ⟨[], ?_, Or.inr ?_⟩
        · simp [stream, taken, hside, hwire]
        · simp [hside, (peer_ne r).symm]

/-- What has been handed over, taken or not, is made of greetings. -/
structure Flowing (sockfd : Role → ℕ) (r : Role) (s : Link) (l : List (List Byte)) : Prop where
  wf : ∀ q, (s.side q).endpoint.Wf
  framed : (s.side r).endpoint.Framed r (sockfd r) (s.stream r l) (s.sent r)

theorem Flowing.step {r : Role} {l : List (List Byte)} (h : Flowing sockfd r s l) {a : LinkAct}
    (hstep : s.step sockfd a = some t) :
    Flowing sockfd r t (l ++ (taken (peer r) s a).toList) where
  wf := wf_step h.wf hstep
  framed := by
    obtain ⟨out, hstream, ⟨b, e, -, rfl, ht, hside⟩ | ⟨rfl, hpc, ho, hends⟩⟩ := stream_step hstep l
    · have hf := h.framed.step (h.wf r) ht
      have hsent : t.sent r = s.sent r + if (s.side r).endpoint.sends e then 1 else 0 := by
        simp only [sent, hside, Side.record]
        split <;> simp
      rw [hstream, hsent, hside]
      exact hf
    · have hsent : t.sent r = s.sent r := by simp only [sent, hends]
      rw [hstream, List.append_nil, hsent]
      exact h.framed.keep hpc ho

end Link
end EpollThreads.Connection
