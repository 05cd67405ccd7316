import EpollThreads.Events.Transfer

/-!
# One event through `i_epoll_wait` and the handlers

The event masks of `iEpoll`, the position of a worker inside the handling of
one event, and how one kernel call moves it. The connection handlers of
`TaskThread` and of the test client differ only in the message they format and
in the counter that `TaskThread::iClose` decrements.
-/

namespace EpollThreads.Events

open Foundations

def EPOLLIN : BitVec 32 := 0x001
def EPOLLOUT : BitVec 32 := 0x004
def EPOLLERR : BitVec 32 := 0x008
def EPOLLHUP : BitVec 32 := 0x010
def EPOLLRDHUP : BitVec 32 := 0x2000
def EPOLLET : BitVec 32 := 0x80000000

/-- `I_EPOLL_READ`, `I_EPOLL_WRITE`, `I_EPOLL_RW`. -/
inductive Mode
  | read
  | write
  | rw
  deriving DecidableEq, Repr

inductive Behavior
  | levelTriggered
  | edgeTriggered
  deriving DecidableEq, Repr

def Mode.bits : Mode → BitVec 32
  | .read => EPOLLIN
  | .write => EPOLLOUT
  | .rw => EPOLLIN ||| EPOLLOUT

def Behavior.bits : Behavior → BitVec 32
  | .levelTriggered => 0
  | .edgeTriggered => EPOLLET

/-- The mask `i_epoll_add` registers. -/
def addEvents (mode : Mode) (behavior : Behavior) : BitVec 32 :=
  (EPOLLERR ||| EPOLLHUP ||| EPOLLRDHUP) ||| behavior.bits ||| mode.bits

/-- The mask `i_epoll_change_mode` installs. -/
def changeModeEvents (mode : Mode) (behavior : Behavior) : BitVec 32 :=
  (EPOLLERR ||| EPOLLHUP) ||| behavior.bits ||| mode.bits

/-- `events & flags` as a condition. -/
def has (events flags : BitVec 32) : Bool := events &&& flags != 0

@[simp] theorem has_zero (flags : BitVec 32) : has 0#32 flags = false := by simp [has]

theorem has_mono {m flags flags' : BitVec 32} (hf : flags' &&& flags = flags)
    (h : has m flags = true) : has m flags' = true := by
  by_contra hc
  have hz : m &&& flags' = 0#32 := by simpa [has] using hc
  have hb : m &&& flags = 0#32 := by rw [← hf, ← BitVec.and_assoc, hz, BitVec.zero_and]
  simp [has, hb] at h

theorem has_of_and {events m flags : BitVec 32} (h : has (events &&& m) flags = true) :
    has m flags = true := by
  by_contra hc
  have hz : m &&& flags = 0#32 := by simpa [has] using hc
  simp [has, BitVec.and_assoc, hz] at h

inductive Role
  | taskThread
  | test
  deriving DecidableEq, Repr

/-- The text the write handler formats with `sprintf`. -/
def message : Role → ℕ → ℕ → List Byte
  | .taskThread, sockfd, usec =>
      ascii "Hi " ++ ascii (toString sockfd) ++ ascii " welcome " ++ ascii (toString usec)
  | .test, sockfd, usec =>
      ascii "Hi server, i'am " ++ ascii (toString sockfd) ++ ascii " " ++ ascii (toString usec)

theorem message_ne_nil (role : Role) (sockfd usec : ℕ) : message role sockfd usec ≠ [] := by
  cases role <;> simp [message, ascii]

/-- The greeting fits its buffer: a descriptor is an `int`. -/
theorem length_message_lt (role : Role) {sockfd usec : ℕ} (hfd : sockfd < 2 ^ 31)
    (husec : usec < 10 ^ 6) : (message role sockfd usec).length < MIN_BUFSZ := by
  have hdigits : ∀ k : ℕ, (ascii (toString k)).length = k.repr.length := fun k => by
    rw [← String.length_toList]
    simp [ascii]
  have hsockfd : sockfd.repr.length ≤ 10 := (Nat.length_repr_le_iff (by decide)).mpr (by omega)
  have hu : usec.repr.length ≤ 6 := (Nat.length_repr_le_iff (by decide)).mpr husec
  have hhi : (ascii "Hi ").length = 3 := by decide
  have hwelcome : (ascii " welcome ").length = 9 := by decide
  have hserver : (ascii "Hi server, i'am ").length = 16 := by decide
  have hblank : (ascii " ").length = 1 := by decide
  cases role <;>
    simp only [message, List.length_append, hdigits, hhi, hwelcome, hserver, hblank, MIN_BUFSZ] <;>
    omega

/-- Where a worker is inside the handling of one event. -/
inductive Stage
  | recvn (r : Recvn)
  | changeToWrite
  | format
  | sendn (s : Sendn)
  | changeToRead
  | iError
  | del
  | close (deleted : Bool)
  | dec
  deriving DecidableEq, Repr

/-- The calls and local instructions that move a worker. -/
inductive HandlerAct
  | recv (res : RecvResult) (errno : ℤ)
  | format (usec : ℕ)
  | send (res : SendResult) (errno : ℤ)
  | mod (ok : Bool)
  | error
  | del (ok : Bool)
  | close
  | dec
  deriving DecidableEq, Repr

/-- A transfer that brings nothing and is repeated: a signal interrupted it, or `recv` found the
end of the stream while `errno` was EINTR from before. -/
def HandlerAct.retries : HandlerAct → Bool
  | .recv .eof errno | .recv .fail errno | .send .fail errno => errno = EINTR
  | _ => false

/-- Position and `nRet` after a step; no stage means `i++`. -/
structure Pass where
  stage : Option Stage
  nRet : ℤ
  deriving DecidableEq, Repr

/-- `if (nRet < 0) iClose(sockfd);` -/
def afterError (nRet : ℤ) : Option Stage := if nRet < 0 then some .del else none

def afterWrite (events : BitVec 32) (nRet : ℤ) : Option Stage :=
  if has events (EPOLLHUP ||| EPOLLERR ||| EPOLLRDHUP) then some .iError else afterError nRet

def afterRead (events : BitVec 32) (nRet : ℤ) : Option Stage :=
  if has events EPOLLOUT then some .format else afterWrite events nRet

/-- The head of the loop body: `nRet` still holds what the event before left. -/
def beginEvent (events : BitVec 32) (nRet : ℤ) : Option Stage :=
  if has events EPOLLIN then some (.recvn (.start MIN_BUFSZ)) else afterRead events nRet

namespace Stage

/-- The write handler once `sendn` is in the loop or has returned. -/
def ofSendn (events : BitVec 32) (nRet : ℤ) : LoopStep Sendn → Pass
  | .again s => ⟨some (.sendn s), nRet⟩
  | .done bytes => if bytes ≤ 0 then ⟨afterWrite events (-1), -1⟩ else ⟨some .changeToRead, nRet⟩

/-- The read handler once `recvn` is in the loop or has returned. -/
def ofRecvn (events : BitVec 32) (nRet : ℤ) : LoopStep Recvn → Pass
  | .again r => ⟨some (.recvn r), nRet⟩
  | .done bytes => if bytes ≤ 0 then ⟨afterRead events (-1), -1⟩ else ⟨some .changeToWrite, nRet⟩

/-- One step of the handling of an event. The result of `i_epoll_change_mode`
is dropped by both handlers, which then return 0; a text that does not fit
`sBuf` has no successor. The log calls are those of `opening` and `logs`. -/
def advance (role : Role) (sockfd : ℕ) (events : BitVec 32) (nRet : ℤ) :
    Stage → HandlerAct → Option Pass
  | .recvn r, .recv res errno =>
      if r.Admits res then some (ofRecvn events nRet (r.recv res errno)) else none
  | .changeToWrite, .mod _ => some ⟨afterRead events 0, 0⟩
  | .format, .format usec =>
      if (message role sockfd usec).length < MIN_BUFSZ then
        some (ofSendn events nRet (Sendn.start (message role sockfd usec)).test)
      else none
  | .sendn s, .send res errno =>
      if s.Admits res then some (ofSendn events nRet (s.send res errno)) else none
  | .changeToRead, .mod _ => some ⟨afterWrite events 0, 0⟩
  | .iError, .error => some ⟨afterError (-1), -1⟩
  | .del, .del ok => some ⟨some (.close ok), nRet⟩
  | .close _, .close => some ⟨if role = .taskThread then some .dec else none, nRet⟩
  | .dec, .dec => some ⟨none, nRet⟩
  | _, _ => none

/-- The mode that the `i_epoll_change_mode` of a handler asks for. -/
def newMode : Stage → Mode
  | .changeToWrite => .write
  | _ => .read

end Stage

/-- Where a step of the handling of an event leads. -/
inductive Stage.Next (role : Role) (events : BitVec 32) : Stage → HandlerAct → Option Stage → Prop
  | receiving {r res errno} (r' : Recvn) : Next role events (.recvn r) (.recv res errno)
      (some (.recvn r'))
  | received {r res errno} : Next role events (.recvn r) (.recv res errno) (some .changeToWrite)
  | unreceived {r res errno} : Next role events (.recvn r) (.recv res errno)
      (afterRead events (-1))
  | changedToWrite {ok} : Next role events .changeToWrite (.mod ok) (afterRead events 0)
  | formatted {usec} (s : Sendn) : Next role events .format (.format usec) (some (.sendn s))
  | sending {s res errno} (s' : Sendn) : Next role events (.sendn s) (.send res errno)
      (some (.sendn s'))
  | sent {s res errno} : Next role events (.sendn s) (.send res errno) (some .changeToRead)
  | unsent {s res errno} : Next role events (.sendn s) (.send res errno) (afterWrite events (-1))
  | changedToRead {ok} : Next role events .changeToRead (.mod ok) (afterWrite events 0)
  | failed : Next role events .iError .error (some .del)
  | deleted {ok} : Next role events .del (.del ok) (some (.close ok))
  | closed {deleted} : Next role events (.close deleted) .close
      (if role = .taskThread then some .dec else none)
  | decremented : Next role events .dec .dec none

theorem Stage.next_of_advance {role : Role} {sockfd : ℕ} {events : BitVec 32} {nRet : ℤ}
    {stage : Stage} {act : HandlerAct} {p : Pass}
    (h : stage.advance role sockfd events nRet act = some p) :
    Stage.Next role events stage act p.stage := by
  unfold Stage.advance at h
  split at h <;> simp only [Option.ite_none_right_eq_some, Option.some.injEq, reduceCtorEq] at h
  · obtain ⟨-, rfl⟩ := h
    rename_i r res errno
    cases r.recv res errno with
    | again r' => exact .receiving r'
    | done bytes =>
      simp only [ofRecvn]
      split
      · exact .unreceived
      · exact .received
  · subst h
    exact .changedToWrite
  · obtain ⟨hlen, rfl⟩ := h
    rw [(Sendn.test_start (message_ne_nil _ _ _) hlen).1]
    exact .formatted _
  · obtain ⟨-, rfl⟩ := h
    rename_i s res errno
    cases s.send res errno with
    | again s' => exact .sending s'
    | done bytes =>
      simp only [ofSendn]
      split
      · exact .unsent
      · exact .sent
  · subst h
    exact .changedToRead
  · subst h
    exact .failed
  · subst h
    exact .deleted
  · subst h
    exact .closed
  · subst h
    exact .decremented

/-- Acts of a handler that neither the kernel tables nor a counter record. -/
def Quiet : HandlerAct → Prop
  | .mod true | .del _ | .close | .dec => False
  | _ => True

/-- Stages in which the descriptor of the event is still registered. -/
def StillRegistered : Stage → Prop
  | .close _ | .dec => False
  | _ => True

theorem stillRegistered_afterError {nRet : ℤ} :
    ∀ stage ∈ afterError nRet, StillRegistered stage := by
  unfold afterError
  split <;> simp [StillRegistered]

theorem stillRegistered_afterWrite {events : BitVec 32} {nRet : ℤ} :
    ∀ stage ∈ afterWrite events nRet, StillRegistered stage := by
  unfold afterWrite
  split
  · simp [StillRegistered]
  · exact stillRegistered_afterError

theorem stillRegistered_afterRead {events : BitVec 32} {nRet : ℤ} :
    ∀ stage ∈ afterRead events nRet, StillRegistered stage := by
  unfold afterRead
  split
  · simp [StillRegistered]
  · exact stillRegistered_afterWrite

theorem stillRegistered_beginEvent {events : BitVec 32} {nRet : ℤ} :
    ∀ stage ∈ beginEvent events nRet, StillRegistered stage := by
  unfold beginEvent
  split
  · simp [StillRegistered]
  · exact stillRegistered_afterRead

theorem stillRegistered_ofRecvn {events : BitVec 32} {nRet : ℤ} {l : LoopStep Recvn} :
    ∀ stage ∈ (Stage.ofRecvn events nRet l).stage, StillRegistered stage := by
  cases l with
  | again r => simp [Stage.ofRecvn, StillRegistered]
  | done bytes =>
    simp only [Stage.ofRecvn]
    split
    · exact stillRegistered_afterRead
    · simp [StillRegistered]

theorem stillRegistered_ofSendn {events : BitVec 32} {nRet : ℤ} {l : LoopStep Sendn} :
    ∀ stage ∈ (Stage.ofSendn events nRet l).stage, StillRegistered stage := by
  cases l with
  | again s => simp [Stage.ofSendn, StillRegistered]
  | done bytes =>
    simp only [Stage.ofSendn]
    split
    · exact stillRegistered_afterWrite
    · simp [StillRegistered]

/-- A quiet act, like a mode change, moves between stages before the descriptor is deleted. -/
theorem stillRegistered_advance {role : Role} {sockfd : ℕ} {events : BitVec 32} {nRet : ℤ}
    {stage : Stage} {act : HandlerAct} {p : Pass} (hq : Quiet act ∨ act = .mod true)
    (h : stage.advance role sockfd events nRet act = some p) :
    StillRegistered stage ∧ ∀ stage' ∈ p.stage, StillRegistered stage' := by
  have hnext := Stage.next_of_advance h
  generalize p.stage = next at hnext
  cases hnext with
  | receiving | received | formatted | sending | sent | failed =>
    exact ⟨trivial, by simp [StillRegistered]⟩
  | unreceived | changedToWrite => exact ⟨trivial, stillRegistered_afterRead⟩
  | unsent | changedToRead => exact ⟨trivial, stillRegistered_afterWrite⟩
  | deleted | closed | decremented => simp [Quiet] at hq

/-- The read handler after one `recv`: still in the loop, done with what it has
stored, or failed with nothing. -/
theorem ofRecvn_cases {r : Recvn} (h : r.Filling) {res : RecvResult} (ha : r.Admits res)
    (errno : ℤ) (events : BitVec 32) (nRet : ℤ) :
    (∃ r' : Recvn, r'.Filling ∧ r'.str = r.str ++ received res ∧
      Stage.ofRecvn events nRet (r.recv res errno) = ⟨some (.recvn r'), nRet⟩) ∨
    (r.str ++ received res ≠ [] ∧
      Stage.ofRecvn events nRet (r.recv res errno) = ⟨some .changeToWrite, nRet⟩) ∨
    (r.str ++ received res = [] ∧
      Stage.ofRecvn events nRet (r.recv res errno) = ⟨afterRead events (-1), -1⟩) := by
  have hdone : ∀ str : List Byte, r.recv res errno = .done str.length →
      (str ≠ [] ∧ Stage.ofRecvn events nRet (r.recv res errno) = ⟨some .changeToWrite, nRet⟩) ∨
      (str = [] ∧
        Stage.ofRecvn events nRet (r.recv res errno) = ⟨afterRead events (-1), -1⟩) := by
    intro str hs
    rw [hs]
    cases str with
    | nil => exact Or.inr ⟨rfl, rfl⟩
    | cons b bs =>
      have hpos : ¬((b :: bs).length : ℤ) ≤ 0 := by simp
      exact Or.inl ⟨by simp, by simp only [Stage.ofRecvn, if_neg hpos]⟩
  rcases h.recv ha errno with ⟨bytes, rfl, ⟨hagain, hfill⟩ | hd⟩ | ⟨hres, hagain | hd⟩
  · exact Or.inl ⟨_, hfill, rfl, by rw [hagain]; rfl⟩
  · exact Or.inr (hdone _ hd)
  · have hnil : received res = [] := by rcases hres with rfl | rfl <;> rfl
    exact Or.inl ⟨r, h, by simp [hnil], by rw [hagain]; rfl⟩
  · have hnil : received res = [] := by rcases hres with rfl | rfl <;> rfl
    rw [hnil, List.append_nil]
    exact Or.inr (hdone _ hd)

/-- The write handler after one `send`: still in the loop, done with the rest of
the message, or failed. -/
theorem ofSendn_cases {s : Sendn} (h : s.Sending) {res : SendResult} (ha : s.Admits res)
    (errno : ℤ) (events : BitVec 32) (nRet : ℤ) :
    (∃ s' : Sendn, s'.Sending ∧
      Stage.ofSendn events nRet (s.send res errno) = ⟨some (.sendn s'), nRet⟩) ∨
    (s.accepted res = s.str ∧ s.str ≠ [] ∧
      Stage.ofSendn events nRet (s.send res errno) = ⟨some .changeToRead, nRet⟩) ∨
    Stage.ofSendn events nRet (s.send res errno) = ⟨afterWrite events (-1), -1⟩ := by
  rcases h.send ha errno with ⟨k, rfl, hpos, hle, ⟨hagain, hsend⟩ | ⟨rfl, hd, hn⟩⟩ |
    ⟨rfl, hagain | hd⟩
  · exact Or.inl ⟨_, hsend, by rw [hagain]; rfl⟩
  · have hneg : ¬(s.nLen : ℤ) ≤ 0 := by omega
    refine Or.inr (Or.inl ⟨List.take_length, List.length_pos_iff.mp hpos, ?_⟩)
    rw [hd]
    simp only [Stage.ofSendn, if_neg hneg]
  · exact Or.inl ⟨s, h, by rw [hagain]; rfl⟩
  · exact Or.inr (Or.inr (by rw [hd]; rfl))

end EpollThreads.Events
