import EpollThreads.Define
import EpollThreads.Foundations.CString

/-!
# The transfer loops of `iSocket`

`recvn` and `sendn` call the kernel until their buffer is full or sent. One
step here is one call: its result, and the value `errno` has when the loop
tests it. Only a failing call sets `errno`; after a result of 0 the test reads
whatever an earlier call left there.
-/

namespace EpollThreads.Events

open Foundations

def EINTR : ℤ := 4
def EAGAIN : ℤ := 11

inductive RecvResult
  | data (bytes : List Byte)
  | eof
  | fail
  deriving DecidableEq, Repr

/-- The bytes a `recv` delivers. -/
def received : RecvResult → List Byte
  | .data bytes => bytes
  | .eof | .fail => []

inductive SendResult
  | sent (nRet : ℕ)
  | fail
  deriving DecidableEq, Repr

/-- A `while` loop either goes round again or returns its value. -/
inductive LoopStep (β : Type)
  | again (st : β)
  | done (ret : ℤ)
  deriving DecidableEq, Repr

/-- The variables of `recvn`; `str` is what it has stored so far. -/
structure Recvn where
  nLen : ℕ
  n : ℤ
  str : List Byte
  deriving DecidableEq, Repr

namespace Recvn

def start (nLen : ℕ) : Recvn := ⟨nLen, toInt nLen, []⟩

def result (r : Recvn) : ℤ := toInt (r.nLen - r.n)

def test (r : Recvn) : LoopStep Recvn := if 0 < r.n then .again r else .done r.result

theorem test_pos {r : Recvn} (h : 0 < r.n) : r.test = .again r := if_pos h

theorem test_nonpos {r : Recvn} (h : ¬0 < r.n) : r.test = .done r.result := if_neg h

/-- The loop body after one `recv(sockfd, str, n, MSG_NOSIGNAL)`. -/
def recv (r : Recvn) (res : RecvResult) (errno : ℤ) : LoopStep Recvn :=
  match res with
  | .data bytes => test ⟨r.nLen, r.n - bytes.length, r.str ++ bytes⟩
  | .eof | .fail => if errno = EINTR then .again r else .done r.result

/-- A result `recv` can have here: at least one byte, and no more than asked for. -/
def Admits (r : Recvn) : RecvResult → Prop
  | .data bytes => bytes ≠ [] ∧ (bytes.length : ℤ) ≤ r.n
  | .eof | .fail => True

instance (r : Recvn) (res : RecvResult) : Decidable (r.Admits res) := by
  cases res <;> unfold Admits <;> infer_instance

/-- What holds inside the loop of a call on a buffer of `MIN_BUFSZ` bytes. -/
structure Filling (r : Recvn) : Prop where
  nLen : r.nLen = MIN_BUFSZ
  room : r.n = MIN_BUFSZ - r.str.length
  inside : 0 < r.n

theorem filling_start : Filling (start MIN_BUFSZ) := by
  constructor <;> decide

theorem Filling.result {r : Recvn} (h : r.nLen = MIN_BUFSZ)
    (hroom : r.n = MIN_BUFSZ - r.str.length) (hlen : r.str.length ≤ MIN_BUFSZ) :
    r.result = r.str.length := by
  have hr : (r.nLen - r.n : ℤ) = r.str.length := by rw [h, hroom]; ring
  rw [Recvn.result, hr, toInt]
  apply Int.bmod_eq_of_le <;> simp only [MIN_BUFSZ] at hlen <;> omega

/-- One call inside the loop: it stores what `recv` delivered, and it returns
the number of bytes stored. -/
theorem Filling.recv {r : Recvn} (h : r.Filling) {res : RecvResult} (ha : r.Admits res)
    (errno : ℤ) :
    (∃ bytes, res = .data bytes ∧
      ((r.recv res errno = .again ⟨r.nLen, r.n - bytes.length, r.str ++ bytes⟩ ∧
          Filling ⟨r.nLen, r.n - bytes.length, r.str ++ bytes⟩) ∨
        r.recv res errno = .done (r.str ++ bytes).length)) ∨
    ((res = .eof ∨ res = .fail) ∧
      (r.recv res errno = .again r ∨ r.recv res errno = .done r.str.length)) := by
  have hlen : r.str.length ≤ MIN_BUFSZ := by have := h.room; have := h.inside; omega
  cases res with
  | data bytes =>
    obtain ⟨hne, hle⟩ := ha
    have hroom : r.n - bytes.length = MIN_BUFSZ - ((r.str ++ bytes).length : ℕ) := by
      rw [h.room, List.length_append]; push_cast; ring
    refine Or.inl ⟨bytes, rfl, ?_⟩
    by_cases hpos : 0 < r.n - bytes.length
    · exact Or.inl ⟨by simp only [Recvn.recv, test, if_pos hpos], ⟨h.nLen, hroom, hpos⟩⟩
    · right
      have hfull : (r.str ++ bytes).length ≤ MIN_BUFSZ := by omega
      have := Filling.result (r := ⟨r.nLen, r.n - bytes.length, r.str ++ bytes⟩)
        h.nLen hroom hfull
      simp only [Recvn.recv, test, if_neg hpos, this]
  | eof | fail =>
    right
    refine ⟨by simp, ?_⟩
    by_cases he : errno = EINTR
    · exact Or.inl (by simp [Recvn.recv, he])
    · exact Or.inr (by simp [Recvn.recv, he, Filling.result h.nLen h.room hlen])

end Recvn

/-- The variables of `sendn`; `str` is what it has still to send. -/
structure Sendn where
  nLen : ℕ
  n : ℤ
  str : List Byte
  deriving DecidableEq, Repr

namespace Sendn

def start (msg : List Byte) : Sendn := ⟨msg.length, toInt msg.length, msg⟩

def result (s : Sendn) : ℤ := toInt (s.nLen - s.n)

def test (s : Sendn) : LoopStep Sendn := if 0 < s.n then .again s else .done s.result

theorem test_pos {s : Sendn} (h : 0 < s.n) : s.test = .again s := if_pos h

theorem test_nonpos {s : Sendn} (h : ¬0 < s.n) : s.test = .done s.result := if_neg h

/-- The loop body after one `send(sockfd, str, n, MSG_NOSIGNAL)`. -/
def send (s : Sendn) (res : SendResult) (errno : ℤ) : LoopStep Sendn :=
  match res with
  | .sent nRet =>
      if nRet = 0 then (if errno = EINTR then .again s else .done (-1))
      else test ⟨s.nLen, s.n - nRet, s.str.drop nRet⟩
  | .fail => if errno = EINTR then .again s else .done (-1)

/-- A result `send` can have here: no more bytes than it was given. -/
def Admits (s : Sendn) : SendResult → Prop
  | .sent nRet => 0 < nRet ∧ (nRet : ℤ) ≤ s.n
  | .fail => True

instance (s : Sendn) (res : SendResult) : Decidable (s.Admits res) := by
  cases res <;> unfold Admits <;> infer_instance

/-- The bytes one `send` hands to the kernel. -/
def accepted (s : Sendn) : SendResult → List Byte
  | .sent nRet => s.str.take nRet
  | .fail => []

/-- What holds inside the loop: the message is shorter than the formatting buffer. -/
structure Sending (s : Sendn) : Prop where
  nLen : s.nLen < MIN_BUFSZ
  room : s.n = s.str.length
  inside : 0 < s.n
  le : s.n ≤ s.nLen

theorem test_start {msg : List Byte} (hne : msg ≠ []) (hlen : msg.length < MIN_BUFSZ) :
    test (start msg) = .again (start msg) ∧ Sending (start msg) := by
  have hpos := List.length_pos_iff.mpr hne
  have hn : toInt msg.length = msg.length := by
    apply Int.bmod_eq_of_le <;> simp only [MIN_BUFSZ] at hlen <;> omega
  have hn0 : 0 < (start msg).n := by simp only [start, hn]; omega
  refine ⟨if_pos hn0, ?_⟩
  constructor <;> simp only [start, hn]
  · exact hlen
  · omega
  · exact le_rfl

/-- One call inside the loop: on a short count it keeps exactly the rest, on a
full count it returns a positive length. -/
theorem Sending.send {s : Sendn} (h : s.Sending) {res : SendResult} (ha : s.Admits res)
    (errno : ℤ) :
    (∃ nRet, res = .sent nRet ∧ 0 < nRet ∧ nRet ≤ s.str.length ∧
      ((s.send res errno = .again ⟨s.nLen, s.n - nRet, s.str.drop nRet⟩ ∧
          Sending ⟨s.nLen, s.n - nRet, s.str.drop nRet⟩) ∨
        (nRet = s.str.length ∧ s.send res errno = .done s.nLen ∧ 0 < s.nLen))) ∨
    (res = .fail ∧ (s.send res errno = .again s ∨ s.send res errno = .done (-1))) := by
  cases res with
  | sent nRet =>
    obtain ⟨hpos, hle⟩ := ha
    have hroom := h.room
    have hnLen := h.nLen
    have hsle := h.le
    refine Or.inl ⟨nRet, rfl, hpos, by omega, ?_⟩
    by_cases hn : 0 < s.n - nRet
    · left
      refine ⟨by simp only [Sendn.send, if_neg hpos.ne', test, if_pos hn],
        ⟨hnLen, ?_, hn, by simp only; omega⟩⟩
      simp only [List.length_drop]
      omega
    · right
      have hr : toInt ((s.nLen : ℤ) - (s.n - nRet)) = s.nLen := by
        have : (s.nLen : ℤ) - (s.n - nRet) = s.nLen := by omega
        rw [this]
        apply Int.bmod_eq_of_le <;> simp only [MIN_BUFSZ] at hnLen <;> omega
      have := h.inside
      refine ⟨by omega, ?_, by omega⟩
      simp only [Sendn.send, if_neg hpos.ne', test, if_neg hn, result, hr]
  | fail =>
    right
    refine ⟨rfl, ?_⟩
    by_cases he : errno = EINTR <;> simp [Sendn.send, he]

end Sendn
end EpollThreads.Events
