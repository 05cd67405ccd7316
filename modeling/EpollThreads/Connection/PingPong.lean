import EpollThreads.Connection.Turns
import Mathlib.Logic.Function.Basic

/-!
# A server connection and a client connection over one stream

The two endpoints run side by side; what one hands to its kernel travels on a
reliable ordered wire and arrives at the other in pieces of any size. Beside
the program each side records where its messages end in its own stream and how
much of the peer's stream its completed reads have covered.
-/

namespace EpollThreads.Connection

open Foundations Events

def peer : Role → Role
  | .taskThread => .test
  | .test => .taskThread

@[simp] theorem peer_peer (r : Role) : peer (peer r) = r := by cases r <;> rfl

@[simp] theorem peer_ne (r : Role) : peer r ≠ r := by cases r <;> decide

theorem eq_or_eq_peer (q r : Role) : q = r ∨ q = peer r := by cases q <;> cases r <;> decide

structure Side where
  endpoint : Endpoint
  written : ℕ
  ends : List ℕ
  heard : ℕ
  deriving DecidableEq, Repr

structure Link where
  side : Role → Side
  wire : Role → List Byte

inductive LinkAct
  | act (r : Role) (a : EndpointAct)
  | deliver (r : Role) (k : ℕ)
  deriving DecidableEq, Repr

/-- Data comes from the wire only, and the stream breaks only when the peer closes. -/
def EndpointAct.isLocal (peerOpened : Bool) : EndpointAct → Bool
  | .arrive _ => false
  | .fin | .reset => !peerOpened
  | _ => true

/-- The bookkeeping of a step of the endpoint to `e`. -/
def Side.record (x : Side) (a : EndpointAct) (e : Endpoint) : Side where
  endpoint := e
  written := x.written + (x.endpoint.output a).length
  ends :=
    if x.endpoint.sends e then x.ends ++ [x.written + (x.endpoint.output a).length] else x.ends
  heard :=
    if x.endpoint.reads e then x.heard + (x.endpoint.got ++ Endpoint.input a).length
    else x.heard

namespace Link

def step (sockfd : Role → ℕ) (s : Link) : LinkAct → Option Link
  | .act r a =>
      if a.isLocal (s.side (peer r)).endpoint.opened then
        ((s.side r).endpoint.step r (sockfd r) a).map fun e =>
          { side := Function.update s.side r ((s.side r).record a e)
            wire := Function.update s.wire (peer r)
              (s.wire (peer r) ++ (s.side r).endpoint.output a) }
      else none
  | .deliver r k =>
      ((s.side r).endpoint.step r (sockfd r) (.arrive ((s.wire r).take k))).map fun e =>
        { side := Function.update s.side r { s.side r with endpoint := e }
          wire := Function.update s.wire r ((s.wire r).drop k) }

structure Start (s : Link) : Prop where
  endpoint : ∀ r, (s.side r).endpoint.Start ∧ (s.side r).endpoint.rcvq = [] ∧
    (s.side r).endpoint.eof = false ∧ (s.side r).endpoint.reset = false
  record : ∀ r, (s.side r).written = 0 ∧ (s.side r).ends = [] ∧ (s.side r).heard = 0
  wire : ∀ r, s.wire r = []

/-- How many messages a side has sent. -/
def sent (s : Link) (r : Role) : ℕ := (s.side r).ends.length

end Link

def pingPong (sockfd : Role → ℕ) : Machine Link LinkAct where
  start := Link.Start
  step := Link.step sockfd

/-- No `epoll_ctl` of either side fails. -/
def LinkAct.CtlOk : LinkAct → Prop
  | .act _ a => a.CtlOk
  | .deliver _ _ => True

namespace Link

variable {sockfd : Role → ℕ} {s t : Link}

theorem step_act {r : Role} {a : EndpointAct} (h : s.step sockfd (.act r a) = some t) :
    ∃ e, Endpoint.Transition r (sockfd r) (s.side r).endpoint a e ∧
      t.side = Function.update s.side r ((s.side r).record a e) ∧
      t.wire = Function.update s.wire (peer r)
        (s.wire (peer r) ++ (s.side r).endpoint.output a) := by
  simp only [step, Option.ite_none_right_eq_some] at h
  obtain ⟨e, he, rfl⟩ := Option.map_eq_some_iff.mp h.2
  exact ⟨e, Endpoint.step_cases he, rfl, rfl⟩

theorem step_deliver {r : Role} {k : ℕ} (h : s.step sockfd (.deliver r k) = some t) :
    ∃ e, Endpoint.Transition r (sockfd r) (s.side r).endpoint (.arrive ((s.wire r).take k)) e ∧
      t.side = Function.update s.side r { s.side r with endpoint := e } ∧
      t.wire = Function.update s.wire r ((s.wire r).drop k) := by
  obtain ⟨e, he, rfl⟩ := Option.map_eq_some_iff.mp h
  exact ⟨e, Endpoint.step_cases he, rfl, rfl⟩

theorem wf_step (h : ∀ r, (s.side r).endpoint.Wf) {a : LinkAct}
    (hstep : s.step sockfd a = some t) : ∀ r, (t.side r).endpoint.Wf := by
  intro q
  cases a with
  | act r a =>
    obtain ⟨e, ht, hs, -⟩ := step_act hstep
    rcases eq_or_eq_peer q r with rfl | rfl
    · simpa [hs, Side.record] using (h q).step ht
    · simpa [hs] using h (peer r)
  | deliver r k =>
    obtain ⟨e, ht, hs, -⟩ := step_deliver hstep
    rcases eq_or_eq_peer q r with rfl | rfl
    · simpa [hs] using (h q).step ht
    · simpa [hs] using h (peer r)

/-- Somebody still has something to do, or bytes are on their way. -/
def Lively (s : Link) : Prop := ∃ r, (s.side r).endpoint.Busy r ∨ s.wire r ≠ []

theorem Lively.step (h : s.Lively) (hw : ∀ r, (s.side r).endpoint.Wf) {a : LinkAct}
    (hok : a.CtlOk) (hstep : s.step sockfd a = some t) : t.Lively := by
  cases a with
  | act r a =>
    obtain ⟨e, ht, hs, hwire⟩ := step_act hstep
    obtain ⟨q, hq⟩ := h
    rcases hq with hbusy | hne
    · rcases eq_or_eq_peer q r with rfl | rfl
      · rcases Endpoint.busy_step (hw q) hok ht hbusy with hb | hout
        · exact ⟨q, Or.inl (by simpa [hs, Side.record] using hb)⟩
        · exact ⟨peer q, Or.inr (by simp [hwire, hout])⟩
      · exact ⟨peer r, Or.inl (by simpa [hs] using hbusy)⟩
    · rcases eq_or_eq_peer q r with rfl | rfl
      · exact ⟨q, Or.inr (by simpa [hwire, (peer_ne q).symm] using hne)⟩
      · exact ⟨peer r, Or.inr (by simp [hwire, hne])⟩
  | deliver r k =>
    obtain ⟨e, ht, hs, hwire⟩ := step_deliver hstep
    refine ⟨r, Or.inl ?_⟩
    cases ht with
    | arrive hne => exact Or.inr (Or.inr (Or.inr (by simp [hs, hne])))

theorem lively_of_start (h : s.Start) : s.Lively := by
  obtain ⟨he, -⟩ := h.endpoint .taskThread
  refine ⟨.taskThread, Or.inl (Or.inr (Or.inl ?_))⟩
  rw [Endpoint.active_waiting (by simp [he.pc])]
  exact ⟨he.opened, by rw [he.mask]; rfl⟩

/-- Client and server never both wait on nothing. -/
theorem never_both_wait {tr : List LinkAct} (h : (pingPong sockfd).Reaches tr s)
    (hok : ∀ a ∈ tr, a.CtlOk) (hopen : ∀ r, (s.side r).endpoint.opened = true)
    (hpc : ∀ r events stage, (s.side r).endpoint.pc ≠ .handling events stage)
    (hread : ∀ r, ∃ m, (s.side r).endpoint.mask = some m ∧ has m EPOLLIN = true) :
    ∃ r, s.wire r ≠ [] ∨ (s.side r).endpoint.rcvq ≠ [] := by
  have hinv : (∀ r, (s.side r).endpoint.Wf) ∧ s.Lively :=
    h.invariant_of (I := fun s => (∀ r, (s.side r).endpoint.Wf) ∧ s.Lively)
      (fun hs => ⟨fun r => .of_start (hs.endpoint r).1, lively_of_start hs⟩)
      (fun hok hs hstep => ⟨wf_step hs.1 hstep, hs.2.step hs.1 hok hstep⟩) hok
  obtain ⟨hw, r, hbusy | hwire⟩ := hinv
  · refine ⟨r, Or.inr ?_⟩
    obtain ⟨m, hm, hin⟩ := hread r
    rcases (Endpoint.busy_waiting (hpc r)).mp hbusy with ho | hwn | hq
    · simp [hopen r] at ho
    · rw [hm] at hwn
      have hout := ((hw r).mask m hm).2 hin
      simp [WritesNext, hout] at hwn
    · exact hq
  · exact ⟨r, Or.inl hwire⟩

/-- Two fresh sockets with room for `room` bytes. -/
def fresh (room : ℕ) : Link where
  side _ := ⟨⟨[], false, false, room, none, false, true, -1, .idle⟩, 0, [], 0⟩
  wire _ := []

theorem start_fresh (room : ℕ) : (fresh room).Start :=
  ⟨fun _ => ⟨⟨rfl, rfl, rfl, rfl⟩, rfl, rfl, rfl⟩, fun _ => ⟨rfl, rfl, rfl⟩, fun _ => rfl⟩

/-- Descriptor 7 at the server, descriptor 5 at the client. -/
def ports : Role → ℕ
  | .taskThread => 7
  | .test => 5

/-- One message of `len` bytes from side `r`, and the change back to reading. -/
def say (r : Role) (len : ℕ) (ok : Bool) : List LinkAct :=
  [.act r .wait, .act r (.begin 0), .act r (.handle (.format 1)),
    .act r (.handle (.send (.sent len) 0)), .act r (.handle (.mod ok))]

/-- `k` bytes reach side `r`, which reads them and changes to writing. -/
def hear (r : Role) (k : ℕ) (bytes : List Byte) : List LinkAct :=
  [.deliver r k, .act r .wait, .act r (.begin 0), .act r (.handle (.recv (.data bytes) 0)),
    .act r (.handle (.recv .fail EAGAIN)), .act r (.handle (.mod true))]

/-- Both sides registered, and the greeting of the server on its way. -/
def greeting : List LinkAct :=
  [.act .taskThread .add, .act .test .add] ++ say .taskThread 14 true

theorem never_both_wait_greeting :
    ∃ s : Link, (pingPong ports).Reaches greeting s ∧
      (∀ r, ∃ m, (s.side r).endpoint.mask = some m ∧ has m EPOLLIN = true) ∧
      ∃ r, s.wire r ≠ [] ∨ (s.side r).endpoint.rcvq ≠ [] := by
  have h := Machine.Reaches.of_isSome (M := pingPong ports) (start_fresh 100) greeting
    (by decide)
  have hread : ∀ r, ∃ m, ((((pingPong ports).exec (fresh 100) greeting).get (by decide)).side
      r).endpoint.mask = some m ∧ has m EPOLLIN = true := by
    rintro (_ | _) <;> exact ⟨_, rfl, by decide⟩
  refine ⟨_, h, hread, never_both_wait h (by simp [greeting, say, LinkAct.CtlOk,
    EndpointAct.CtlOk]) ?_ ?_ hread⟩
  · rintro (_ | _) <;> decide
  · intro r events stage
    have hidle : ((((pingPong ports).exec (fresh 100) greeting).get (by decide)).side
        r).endpoint.pc = .idle := by cases r <;> decide
    rw [hidle]
    simp

/-- A read that returns data ends where a message of the peer ends. -/
def ReadsWhole (s : Link) (a : LinkAct) (t : Link) : Prop :=
  match a with
  | .act r _ => (s.side r).endpoint.reads (t.side r).endpoint = true →
      (t.side r).heard ∈ (t.side (peer r)).ends
  | .deliver _ _ => True

/-- No change back to reading fails. -/
def TurnsBack (s : Link) (a : LinkAct) : Prop :=
  match a with
  | .act r a => (s.side r).endpoint.sentAll = true → a ≠ .handle (.mod false)
  | .deliver _ _ => True

instance (s : Link) (a : LinkAct) (t : Link) : Decidable (ReadsWhole s a t) := by
  cases a <;> unfold ReadsWhole <;> infer_instance

instance (s : Link) (a : LinkAct) : Decidable (TurnsBack s a) := by
  cases a <;> unfold TurnsBack <;> infer_instance

/-- It is `r`'s turn: to send, or to receive the message that lets it send. -/
structure Turn (r : Role) (s : Link) : Prop where
  count : s.sent .taskThread = s.sent .test + if r = .test then 1 else 0
  waiting : ¬(s.side (peer r)).endpoint.Active (peer r)
  heard : ∀ o ∈ (s.side r).ends, o ≤ (s.side (peer r)).heard
  last : ∀ o ∈ (s.side (peer r)).ends,
    o ≤ (s.side r).heard ∨ (s.side (peer r)).ends.getLast? = some o
  active : (s.side r).endpoint.Active r → ∀ o ∈ (s.side (peer r)).ends, o ≤ (s.side r).heard

/-- What a step that neither completes a message nor a read leaves as it is. -/
theorem Turn.quiet {r : Role} (h : Turn r s) (hends : ∀ q, (t.side q).ends = (s.side q).ends)
    (hheard : ∀ q, (t.side q).heard = (s.side q).heard)
    (hact : ∀ q, (t.side q).endpoint.Active q → (s.side q).endpoint.Active q) : Turn r t where
  count := by simpa only [sent, hends] using h.count
  waiting ha := h.waiting (hact _ ha)
  heard o ho := by rw [hheard]; exact h.heard o (hends r ▸ ho)
  last o ho := by rw [hheard, hends]; exact h.last o (hends _ ▸ ho)
  active ha o ho := by rw [hheard]; exact h.active (hact r ha) o (hends _ ▸ ho)

theorem Turn.quietSide {r q : Role} (h : Turn r s) {x : Side}
    (hside : t.side = Function.update s.side q x) (hends : x.ends = (s.side q).ends)
    (hheard : x.heard = (s.side q).heard)
    (hact : x.endpoint.Active q → (s.side q).endpoint.Active q) : Turn r t := by
  have hq : t.side q = x := by simp [hside]
  have hfar : ∀ q', q' ≠ q → t.side q' = s.side q' := by
    intro q' hne
    simp [hside, hne]
  apply h.quiet
  · intro q'
    by_cases he : q' = q
    · rw [he, hq, hends]
    · rw [hfar q' he]
  · intro q'
    by_cases he : q' = q
    · rw [he, hq, hheard]
    · rw [hfar q' he]
  · intro q' ha
    by_cases he : q' = q
    · rw [he, hq] at ha
      rw [he]
      exact hact ha
    · rwa [hfar q' he] at ha

theorem Turn.send {r : Role} (h : Turn r s) {x : Side} {n : ℕ}
    (hside : t.side = Function.update s.side r x) (hends : x.ends = (s.side r).ends ++ [n])
    (hheard : x.heard = (s.side r).heard) (hbefore : (s.side r).endpoint.Active r)
    (hafter : ¬x.endpoint.Active r) : Turn (peer r) t := by
  have hr : t.side r = x := by simp [hside]
  have hp : t.side (peer r) = s.side (peer r) := by simp [hside]
  refine ⟨?_, ?_, ?_, ?_, ?_⟩
  · have hc := h.count
    cases r <;> simp only [sent, hr, hends, peer, List.length_append] at hc hp ⊢ <;>
      simp only [hp] <;> simp_all
  · simpa [hr] using hafter
  · intro o ho
    rw [peer_peer, hr, hheard]
    exact h.active hbefore o (hp ▸ ho)
  · intro o ho
    rw [peer_peer, hr] at ho ⊢
    rw [hp]
    rw [hends] at ho ⊢
    rcases List.mem_append.mp ho with ho | ho
    · exact Or.inl (h.heard o ho)
    · exact Or.inr (by simp [List.mem_singleton.mp ho])
  · intro ha
    rw [hp] at ha
    exact (h.waiting ha).elim

/-- The read that covers the last message of the peer keeps the turn. -/
theorem Turn.read {r : Role} (h : Turn r s) {x : Side}
    (hside : t.side = Function.update s.side r x) (hends : x.ends = (s.side r).ends)
    (hlt : (s.side r).heard < x.heard) (hwhole : x.heard ∈ (s.side (peer r)).ends) :
    Turn r t := by
  have hr : t.side r = x := by simp [hside]
  have hp : t.side (peer r) = s.side (peer r) := by simp [hside]
  have hlast : (s.side (peer r)).ends.getLast? = some x.heard :=
    (h.last _ hwhole).resolve_left (by omega)
  have hall : ∀ o ∈ (s.side (peer r)).ends, o ≤ x.heard := by
    intro o ho
    rcases h.last o ho with hle | he
    · omega
    · exact (Option.some.inj (he.symm.trans hlast)).le
  refine ⟨?_, ?_, ?_, ?_, ?_⟩
  · have hc := h.count
    cases r <;> simp only [sent, hr, hends, peer] at hc hp ⊢ <;> simp_all
  · rw [hp]; exact h.waiting
  · rw [hr, hp, hends]; exact h.heard
  · rw [hr, hp]; exact fun o ho => Or.inl (hall o ho)
  · rw [hr, hp]; exact fun _ => hall

theorem Turn.act {r : Role} (h : Turn r s) (hw : ∀ q, (s.side q).endpoint.Wf) {q : Role}
    {a : EndpointAct} {e : Endpoint}
    (ht : Endpoint.Transition q (sockfd q) (s.side q).endpoint a e)
    (hside : t.side = Function.update s.side q ((s.side q).record a e))
    (hwhole : ReadsWhole s (.act q a) t) (hback : TurnsBack s (.act q a)) : ∃ r', Turn r' t := by
  have hq : t.side q = (s.side q).record a e := by simp [hside]
  have hp : t.side (peer q) = s.side (peer q) := by simp [hside]
  cases hsend : (s.side q).endpoint.sends e with
  | true =>
    obtain ⟨hbefore, hafter⟩ := Endpoint.sends_iff hsend
    rcases eq_or_eq_peer q r with rfl | rfl
    · exact ⟨_, h.send hside (by simp [Side.record, hsend]; rfl)
        (by simp [Side.record, Endpoint.reads_of_sends hsend]) hbefore hafter⟩
    · exact (h.waiting hbefore).elim
  | false =>
    cases hread : (s.side q).endpoint.reads e with
    | true =>
      have hmem : ((s.side q).record a e).heard ∈ (s.side (peer q)).ends := by
        have := hwhole (by rw [hq]; exact hread)
        rwa [hq, hp] at this
      have hlt : (s.side q).heard < ((s.side q).record a e).heard := by
        have hpos := List.length_pos_iff.mpr (Endpoint.reads_step (hw q) ht hread)
        simp only [Side.record, hread, if_true]
        omega
      rcases eq_or_eq_peer q r with rfl | rfl
      · exact ⟨_, h.read hside (by simp [Side.record, hsend]) hlt hmem⟩
      · rw [peer_peer] at hmem
        have hle := h.heard _ hmem
        omega
    | false =>
      have hact : e.Active q → (s.side q).endpoint.Active q := by
        intro ha
        apply (Endpoint.active_step (hw q) ht hback ha).resolve_right
        simp [hread]
      exact ⟨r, h.quietSide hside (by simp [Side.record, hsend]) (by simp [Side.record, hread])
        hact⟩

theorem Turn.step {r : Role} (h : Turn r s) (hw : ∀ q, (s.side q).endpoint.Wf) {a : LinkAct}
    (hstep : s.step sockfd a = some t) (hwhole : ReadsWhole s a t) (hback : TurnsBack s a) :
    ∃ r', Turn r' t := by
  cases a with
  | act q a =>
    obtain ⟨e, ht, hside, -⟩ := step_act hstep
    exact h.act hw ht hside hwhole hback
  | deliver q k =>
    obtain ⟨e, ht, hside, -⟩ := step_deliver hstep
    have hact : e.Active q → (s.side q).endpoint.Active q := by
      cases ht
      exact (Endpoint.active_congr rfl rfl rfl).mp
    exact ⟨r, h.quietSide hside rfl rfl hact⟩

/-- The server, which registers for writing, has the first turn. -/
theorem turn_of_start (h : s.Start) : Turn .taskThread s where
  count := by simp [sent, (h.record _).2.1]
  waiting := by
    have he := (h.endpoint .test).1
    rw [show peer .taskThread = .test from rfl, Endpoint.active_waiting (by simp [he.pc]), he.mask]
    simp [WritesNext, firstMode]
  heard o ho := by simp [(h.record _).2.1] at ho
  last o ho := by simp [(h.record _).2.1] at ho
  active _ o ho := by simp [(h.record _).2.1] at ho

/-- Ping-pong, as long as no read ends inside a message and no change back to reading fails:
the server is never behind the client and never more than one message ahead. -/
theorem ping_pong {tr : List LinkAct}
    (h : ((pingPong sockfd).restrict fun s a t => ReadsWhole s a t ∧ TurnsBack s a).Reaches tr s) :
    s.sent .taskThread = s.sent .test ∨ s.sent .taskThread = s.sent .test + 1 := by
  have hinv : (∀ r, (s.side r).endpoint.Wf) ∧ ∃ r, Turn r s := by
    refine h.invariant (I := fun s => (∀ r, (s.side r).endpoint.Wf) ∧ ∃ r, Turn r s)
      (fun hs => ⟨fun r => .of_start (hs.endpoint r).1, _, turn_of_start hs⟩) ?_
    rintro s a t ⟨hw, r, ht⟩ hstep
    obtain ⟨hstep, hwhole, hback⟩ := Machine.restrict_step.mp hstep
    exact ⟨wf_step hw hstep, ht.step hw hstep hwhole hback⟩
  obtain ⟨-, r, ht⟩ := hinv
  have hc := ht.count
  split at hc
  · exact Or.inr hc
  · exact Or.inl hc

/-- One exchange in whole messages. -/
theorem ping_pong_exchange :
    ∃ s : Link, ((pingPong ports).restrict fun s a t => ReadsWhole s a t ∧ TurnsBack s a).Reaches
        (greeting ++ hear .test 14 (message .taskThread 7 1)) s ∧
      (s.sent .taskThread = s.sent .test ∨ s.sent .taskThread = s.sent .test + 1) := by
  have h := Machine.Reaches.of_isSome
    (M := (pingPong ports).restrict fun s a t => ReadsWhole s a t ∧ TurnsBack s a)
    (start_fresh 100) (greeting ++ hear .test 14 (message .taskThread 7 1)) (by decide)
  exact ⟨_, h, ping_pong h⟩

/-- Without framing one greeting that arrives in two pieces is answered twice, and after a
change back to reading that failed the server greets again as soon as there is room. -/
theorem not_ping_pong :
    (∃ (tr : List LinkAct) (s : Link), (pingPong ports).Reaches tr s ∧
      (∀ r, (s.side r).endpoint.opened = true) ∧ s.sent .test = s.sent .taskThread + 1) ∧
    ∃ (tr : List LinkAct) (s : Link), ((pingPong ports).restrict ReadsWhole).Reaches tr s ∧
      (∀ r, (s.side r).endpoint.opened = true) ∧ s.sent .taskThread = s.sent .test + 2 := by
  constructor
  · have h := Machine.Reaches.of_isSome (M := pingPong ports) (start_fresh 100)
      (greeting ++ hear .test 3 (ascii "Hi ") ++ say .test 19 true ++
        hear .test 11 (ascii "7 welcome 1") ++ say .test 19 true) (by decide)
    exact ⟨_, _, h, by rintro (_ | _) <;> decide, by decide⟩
  · have h := Machine.Reaches.of_isSome (M := (pingPong ports).restrict ReadsWhole)
      (start_fresh 14) ([.act .taskThread .add, .act .test .add] ++ say .taskThread 14 false ++
        [.act .taskThread (.drain 14)] ++ say .taskThread 14 true) (by decide)
    exact ⟨_, _, h, by rintro (_ | _) <;> decide, by decide⟩

end Link
end EpollThreads.Connection
