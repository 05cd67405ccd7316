import EpollThreads.Events.Receiving

/-!
# A call of `sendn` and what the kernel takes from it

The loop of `Sendn` with `errno` and with the bytes that the kernel accepted. Where a
call stands is a function of what its `send` calls came back with: the accepted
bytes are the front of the message and the rest of it is still to be sent.
-/

namespace EpollThreads.Events

open Foundations

/-- What a `send` comes back with. -/
inductive SendOutcome
  | sent (nRet : ℕ)
  | fail (errno : ℤ)
  deriving DecidableEq, Repr

namespace SendOutcome

def result : SendOutcome → SendResult
  | .sent nRet => .sent nRet
  | .fail _ => .fail

/-- `errno` after the call. -/
def errno (old : ℤ) : SendOutcome → ℤ
  | .fail e => e
  | .sent _ => old

def count : SendOutcome → ℕ
  | .sent nRet => nRet
  | .fail _ => 0

end SendOutcome

/-- How many bytes the kernel accepted in these calls. -/
def acceptedCount (tr : List SendOutcome) : ℕ := (tr.map SendOutcome.count).sum

@[simp] theorem acceptedCount_nil : acceptedCount [] = 0 := rfl

@[simp] theorem acceptedCount_append (tr : List SendOutcome) (o : SendOutcome) :
    acceptedCount (tr ++ [o]) = acceptedCount tr + o.count := by
  simp [acceptedCount]

/-- The variables of `sendn`, the thread's `errno` and what the kernel accepted so far. -/
structure SendCall where
  loop : Sendn
  errno : ℤ
  wire : List Byte
  deriving DecidableEq, Repr

namespace SendCall

def ofLoop (errno : ℤ) (wire : List Byte) : LoopStep Sendn → SendCall ⊕ (ℤ × List Byte)
  | .again s => .inl ⟨s, errno, wire⟩
  | .done ret => .inr (ret, wire)

def start (msg : List Byte) (errno : ℤ) : SendCall ⊕ (ℤ × List Byte) :=
  ofLoop errno [] (Sendn.start msg).test

/-- One `send(sockfd, str, n, MSG_NOSIGNAL)` and the rest of the round. -/
def round (c : SendCall) (o : SendOutcome) : SendCall ⊕ (ℤ × List Byte) :=
  ofLoop (o.errno c.errno) (c.wire ++ c.loop.accepted o.result)
    (c.loop.send o.result (o.errno c.errno))

/-- A `send` takes at least one byte and no more than it was given, or fails. -/
def Fits (c : SendCall) (o : SendOutcome) : Prop := c.loop.Admits o.result

instance (c : SendCall) (o : SendOutcome) : Decidable (c.Fits o) :=
  inferInstanceAs (Decidable (c.loop.Admits o.result))

end SendCall

open SendCall

def sendnLoop : Loop SendCall SendOutcome (ℤ × List Byte) := ⟨Fits, SendCall.round⟩

instance : ∀ c o, Decidable (sendnLoop.admits c o) :=
  fun c o => inferInstanceAs (Decidable (c.Fits o))

namespace SendCall

variable {msg : List Byte} {errno : ℤ} {c : SendCall} {tr : List SendOutcome}

/-- What holds inside the loop after the calls of `tr`. -/
structure At (msg : List Byte) (tr : List SendOutcome) (c : SendCall) : Prop where
  nLen : c.loop.nLen = msg.length
  room : c.loop.n = msg.length - acceptedCount tr
  str : c.loop.str = msg.drop (acceptedCount tr)
  wire : c.wire = msg.take (acceptedCount tr)
  inside : acceptedCount tr < msg.length
  interrupted : ∀ e, .fail e ∈ tr → e = EINTR

/-- What a call has returned with after the calls of `tr`, and what the kernel has then. -/
def Finished (msg : List Byte) (tr : List SendOutcome) (ret : ℤ) (wire : List Byte) : Prop :=
  (ret = msg.length ∧ wire = msg ∧ ∀ e, .fail e ∈ tr → e = EINTR) ∨
  (ret = -1 ∧ wire = msg.take (acceptedCount tr) ∧ acceptedCount tr < msg.length ∧
    ∃ e, .fail e ∈ tr ∧ e ≠ EINTR)

theorem start_cases (hlen : msg.length ≤ 2 ^ 31 - 1) (errno : ℤ) :
    (∃ c, start msg errno = .inl c ∧ At msg [] c) ∨
      (start msg errno = .inr (0, []) ∧ msg = []) := by
  have hn : toInt msg.length = msg.length := toInt_natCast hlen
  cases msg with
  | nil =>
    have hpos : ¬0 < (Sendn.start []).n := by decide
    exact Or.inr ⟨by rw [start, Sendn.test_nonpos hpos]; rfl, rfl⟩
  | cons b msg =>
    left
    have hpos : 0 < (Sendn.start (b :: msg)).n := by
      rw [Sendn.start, hn]
      simp only [List.length_cons]
      omega
    refine ⟨⟨.start (b :: msg), errno, []⟩, ?_, ?_⟩
    · rw [start, Sendn.test_pos hpos, ofLoop]
    · constructor
      · rfl
      · simp only [Sendn.start, hn, acceptedCount_nil]
        simp
      · rfl
      · rfl
      · simp
      · simp

/-- One `send` from inside the loop: a part of the rest, all of the rest, an interruption or
a failure. -/
theorem At.round (h : At msg tr c) (hlen : msg.length ≤ 2 ^ 31 - 1) {o : SendOutcome}
    (ha : c.Fits o) :
    (∃ c', c.round o = .inl c' ∧ At msg (tr ++ [o]) c' ∧
      (o = .fail EINTR ∨ c'.loop.str.length < c.loop.str.length)) ∨
    ∃ ret wire, c.round o = .inr (ret, wire) ∧ Finished msg (tr ++ [o]) ret wire := by
  have hin := h.inside
  have hroom := h.room
  cases o with
  | sent nRet =>
    obtain ⟨hpos, hle⟩ : 0 < nRet ∧ (nRet : ℤ) ≤ c.loop.n := ha
    have hwire : c.wire ++ c.loop.accepted (.sent nRet) =
        msg.take (acceptedCount (tr ++ [.sent nRet])) := by
      rw [h.wire, Sendn.accepted, h.str, acceptedCount_append, List.take_add]
      rfl
    have hfails : ∀ e, .fail e ∈ tr ++ [.sent nRet] → e = EINTR := by
      intro e he
      exact h.interrupted e (by simpa using he)
    have hround : c.round (.sent nRet) = ofLoop c.errno (c.wire ++ c.loop.accepted (.sent nRet))
        (Sendn.test ⟨c.loop.nLen, c.loop.n - nRet, c.loop.str.drop nRet⟩) := by
      simp only [SendCall.round, SendOutcome.result, SendOutcome.errno, Sendn.send, hpos.ne',
        if_false]
    by_cases hn : 0 < c.loop.n - nRet
    · rw [Sendn.test_pos hn] at hround
      refine Or.inl ⟨_, hround, ⟨h.nLen, ?_, ?_, hwire, ?_, hfails⟩, Or.inr ?_⟩
      · simp only [acceptedCount_append, SendOutcome.count]
        push_cast
        omega
      · simp only [h.str, List.drop_drop, acceptedCount_append, SendOutcome.count]
      · simp only [acceptedCount_append, SendOutcome.count]
        omega
      · simp only [List.length_drop, h.str]
        omega
    · rw [Sendn.test_nonpos hn] at hround
      have hall : acceptedCount (tr ++ [.sent nRet]) = msg.length := by
        simp only [acceptedCount_append, SendOutcome.count]
        omega
      have hret : (c.loop.nLen : ℤ) - (c.loop.n - nRet) = msg.length := by
        rw [h.nLen]
        omega
      refine Or.inr ⟨_, _, hround, Or.inl ⟨?_, ?_, hfails⟩⟩
      · simp only [Sendn.result, hret]
        exact toInt_natCast hlen
      · rw [hwire, hall, List.take_length]
  | fail e =>
    have hacc : acceptedCount (tr ++ [.fail e]) = acceptedCount tr := by
      simp [SendOutcome.count]
    by_cases he : e = EINTR
    · have hround : c.round (.fail e) = .inl ⟨c.loop, e, c.wire⟩ := by
        simp only [SendCall.round, SendOutcome.result, SendOutcome.errno, Sendn.send,
          Sendn.accepted, List.append_nil, he, if_true, ofLoop]
      refine Or.inl ⟨_, hround, ⟨h.nLen, ?_, ?_, ?_, ?_, ?_⟩, Or.inl (by rw [he])⟩
      · rw [hacc]; exact hroom
      · rw [hacc]; exact h.str
      · rw [hacc]; exact h.wire
      · rw [hacc]; exact hin
      · intro e' he'
        rcases List.mem_append.mp he' with hmem | hlast
        · exact h.interrupted e' hmem
        · simp only [List.mem_singleton, SendOutcome.fail.injEq] at hlast
          rw [hlast, he]
    · have hround : c.round (.fail e) = .inr (-1, c.wire) := by
        simp only [SendCall.round, SendOutcome.result, SendOutcome.errno, Sendn.send,
          Sendn.accepted, List.append_nil, he, if_false, ofLoop]
      refine Or.inr ⟨_, _, hround, Or.inr ⟨rfl, ?_, ?_, e, by simp, he⟩⟩
      · rw [hacc]; exact h.wire
      · rw [hacc]; exact hin

theorem run_cases (hlen : msg.length ≤ 2 ^ 31 - 1) {x : SendCall ⊕ (ℤ × List Byte)}
    (h : sendnLoop.machine.Run (start msg errno) tr x) :
    (∃ c, x = .inl c ∧ At msg tr c) ∨
      ∃ ret wire, x = .inr (ret, wire) ∧ Finished msg tr ret wire := by
  generalize hx₀ : start msg errno = x₀ at h
  induction h with
  | nil =>
    subst hx₀
    rcases start_cases hlen errno with ⟨c, hc, hat⟩ | ⟨hx, rfl⟩
    · exact Or.inl ⟨c, hc, hat⟩
    · exact Or.inr ⟨0, [], hx, Or.inl ⟨rfl, rfl, by simp⟩⟩
  | @snoc y z tr o _ hstep ih =>
    obtain ⟨c, rfl, ha, rfl⟩ := Loop.step_eq_some.mp hstep
    rcases ih with ⟨c', hc, hat⟩ | ⟨ret, wire, hc, -⟩
    · obtain rfl := Sum.inl.inj hc
      rcases hat.round hlen ha with ⟨c', hc', hat', -⟩ | ⟨ret, wire, hx, hfin⟩
      · exact Or.inl ⟨c', hc', hat'⟩
      · exact Or.inr ⟨ret, wire, hx, hfin⟩
    · cases hc

end SendCall

end EpollThreads.Events
