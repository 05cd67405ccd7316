import EpollThreads.Events.EventLoop

/-!
# Which descriptors `i_epoll_wait` closes

The event loop over arbitrary handlers. One variable takes the results of all handlers of
all events, and its last value decides whether `iClose` is called.
-/

namespace EpollThreads.Events

variable {σ : Type*}

/-- The virtual functions of `iEpoll`; `σ` is all that they read and change. -/
structure Handlers (σ : Type*) where
  iRead : ℕ → σ → ℤ × σ
  iWrite : ℕ → σ → ℤ × σ
  iError : ℕ → σ → ℤ × σ
  iClose : ℕ → σ → ℤ × σ

inductive HandlerName
  | iRead
  | iWrite
  | iError
  | iClose
  deriving DecidableEq, Repr

/-- A handler call and what it returned. -/
structure HandlerCall where
  handler : HandlerName
  sockfd : ℕ
  ret : ℤ
  deriving DecidableEq, Repr

/-- `nRet`, the rest of the world, and the calls made for the event. -/
structure EventState (σ : Type*) where
  nRet : ℤ
  world : σ
  calls : List HandlerCall

namespace EventState

/-- `nRet = handler(sockfd);` -/
def invoke (x : EventState σ) (name : HandlerName) (handler : ℕ → σ → ℤ × σ) (sockfd : ℕ) :
    EventState σ :=
  ⟨(handler sockfd x.world).1, (handler sockfd x.world).2,
    x.calls ++ [⟨name, sockfd, (handler sockfd x.world).1⟩]⟩

/-- `iClose(sockfd);`, whose result is dropped. -/
def close (x : EventState σ) (H : Handlers σ) (sockfd : ℕ) : EventState σ :=
  ⟨x.nRet, (H.iClose sockfd x.world).2,
    x.calls ++ [⟨.iClose, sockfd, (H.iClose sockfd x.world).1⟩]⟩

end EventState

/-- The body of `for (i=0; i<num_fds; i++)`. -/
def onEvent (H : Handlers σ) (sockfd : ℕ) (events : BitVec 32) (x : EventState σ) : EventState σ :=
  let x := if has events EPOLLIN then x.invoke .iRead H.iRead sockfd else x
  let x := if has events EPOLLOUT then x.invoke .iWrite H.iWrite sockfd else x
  let x := if has events (EPOLLHUP ||| EPOLLERR ||| EPOLLRDHUP) then
    x.invoke .iError H.iError sockfd else x
  if x.nRet < 0 then x.close H sockfd else x

/-- An event and the calls made for it. -/
structure Handled where
  sockfd : ℕ
  events : BitVec 32
  calls : List HandlerCall
  deriving DecidableEq, Repr

/-- The events that one `epoll_wait` returned. -/
def onBatch (H : Handlers σ) : List (ℕ × BitVec 32) → ℤ → σ → List Handled × ℤ × σ
  | [], nRet, world => ([], nRet, world)
  | (sockfd, events) :: batch, nRet, world =>
      let x := onEvent H sockfd events ⟨nRet, world, []⟩
      let r := onBatch H batch x.nRet x.world
      (⟨sockfd, events, x.calls⟩ :: r.1, r.2)

/-- `while (!g_Server.shutdown)`: as many rounds as there are batches. -/
def onBatches (H : Handlers σ) : List (List (ℕ × BitVec 32)) → ℤ → σ → List Handled × ℤ × σ
  | [], nRet, world => ([], nRet, world)
  | batch :: batches, nRet, world =>
      let r := onBatch H batch nRet world
      let r' := onBatches H batches r.2.1 r.2.2
      (r.1 ++ r'.1, r'.2)

/-- All events of a run of `i_epoll_wait`, which starts with `int nRet = -1;`. -/
def iEpollWait (H : Handlers σ) (batches : List (List (ℕ × BitVec 32))) (world : σ) :
    List Handled :=
  (onBatches H batches (-1) world).1

section Stages

variable (H : Handlers σ) (sockfd : ℕ) (events : BitVec 32)

/-- From a stage after `iError` on: only `iClose` is left. -/
def closeStage : Option Stage → EventState σ → EventState σ
  | some .del, x => x.close H sockfd
  | _, x => x

def errorStage : Option Stage → EventState σ → EventState σ
  | some .iError, x =>
      let x := x.invoke .iError H.iError sockfd
      closeStage H sockfd (afterError x.nRet) x
  | stage, x => closeStage H sockfd stage x

def writeStage : Option Stage → EventState σ → EventState σ
  | some .format, x =>
      let x := x.invoke .iWrite H.iWrite sockfd
      errorStage H sockfd (afterWrite events x.nRet) x
  | stage, x => errorStage H sockfd stage x

/-- The stages of an event when every handler is taken as one call. -/
def readStage : Option Stage → EventState σ → EventState σ
  | some (.recvn _), x =>
      let x := x.invoke .iRead H.iRead sockfd
      writeStage H sockfd events (afterRead events x.nRet) x
  | stage, x => writeStage H sockfd events stage x

variable {H sockfd events}

theorem closeStage_afterError (x : EventState σ) :
    closeStage H sockfd (afterError x.nRet) x = if x.nRet < 0 then x.close H sockfd else x := by
  unfold afterError
  split_ifs <;> rfl

theorem errorStage_afterWrite (x : EventState σ) :
    errorStage H sockfd (afterWrite events x.nRet) x =
      let y := if has events (EPOLLHUP ||| EPOLLERR ||| EPOLLRDHUP) then
        x.invoke .iError H.iError sockfd else x
      if y.nRet < 0 then y.close H sockfd else y := by
  by_cases h : has events (EPOLLHUP ||| EPOLLERR ||| EPOLLRDHUP) = true
  · simp only [afterWrite, h, if_true, errorStage, closeStage_afterError]
  · simp only [afterWrite, h, if_false, ← closeStage_afterError, Bool.false_eq_true]
    unfold afterError
    split_ifs <;> rfl

theorem writeStage_afterRead (x : EventState σ) :
    writeStage H sockfd events (afterRead events x.nRet) x =
      let y := if has events EPOLLOUT then x.invoke .iWrite H.iWrite sockfd else x
      errorStage H sockfd (afterWrite events y.nRet) y := by
  by_cases h : has events EPOLLOUT = true
  · simp only [afterRead, h, if_true, writeStage]
  · simp only [afterRead, h, if_false, Bool.false_eq_true]
    unfold afterWrite afterError
    split_ifs <;> rfl

/-- The loop body goes through the stages of the step-by-step model. -/
theorem onEvent_eq_readStage (x : EventState σ) :
    onEvent H sockfd events x = readStage H sockfd events (beginEvent events x.nRet) x := by
  by_cases h : has events EPOLLIN = true
  · simp only [onEvent, beginEvent, h, if_true, readStage, writeStage_afterRead,
      errorStage_afterWrite]
  · have hread : readStage H sockfd events (afterRead events x.nRet) x =
        writeStage H sockfd events (afterRead events x.nRet) x := by
      unfold afterRead afterWrite afterError
      split_ifs <;> rfl
    simp only [onEvent, beginEvent, h, if_false, Bool.false_eq_true, hread,
      writeStage_afterRead, errorStage_afterWrite]

end Stages

namespace Handled

/-- What the handlers invoked for the event returned, in order. -/
def results (h : Handled) : List ℤ :=
  (h.calls.filter (·.handler ≠ .iClose)).map HandlerCall.ret

/-- The descriptors `iClose` was called on. -/
def closes (h : Handled) : List ℕ :=
  (h.calls.filter (·.handler = .iClose)).map HandlerCall.sockfd

/-- `iClose` is called once on the descriptor when a handler failed, and else not at all. -/
def ClosesFailed (h : Handled) : Prop :=
  h.closes = if ∃ r ∈ h.results, r < 0 then [h.sockfd] else []

/-- No failure is hidden by a later result; and an event that invokes no handler comes after
a result that is no failure. -/
def Unmasked (before : List ℤ) (h : Handled) : Prop :=
  ((∃ r ∈ h.results, r < 0) → ∃ r ∈ h.results.getLast?, r < 0) ∧
    (h.results = [] → ∃ r ∈ before.getLast?, 0 ≤ r)

end Handled

/-- The last result, or `nRet` as it was. -/
def latest (nRet : ℤ) (results : List ℤ) : ℤ := results.getLast?.getD nRet

theorem latest_append (nRet : ℤ) (results results' : List ℤ) :
    latest nRet (results ++ results') = latest (latest nRet results) results' := by
  cases hr : results' with
  | nil => simp [latest]
  | cons r rs => simp [latest, List.getLast?_append]

/-- Before the test of `nRet`: it holds the latest result and nothing is closed yet. -/
def EventState.Tracks (nRet : ℤ) (x : EventState σ) : Prop :=
  ∀ sockfd events, x.nRet = latest nRet (Handled.mk sockfd events x.calls).results ∧
    (Handled.mk sockfd events x.calls).closes = []

theorem EventState.Tracks.invoke {nRet : ℤ} {x : EventState σ} (h : x.Tracks nRet)
    {name : HandlerName} (hname : name ≠ .iClose) (handler : ℕ → σ → ℤ × σ) (fd : ℕ) :
    (x.invoke name handler fd).Tracks nRet := by
  intro sockfd events
  obtain ⟨-, hcloses⟩ := h sockfd events
  constructor
  · simp [EventState.invoke, Handled.results, List.filter_append, hname, latest]
  · simpa [EventState.invoke, Handled.closes, List.filter_append, hname] using hcloses

theorem EventState.Tracks.close {nRet : ℤ} {x : EventState σ} (h : x.Tracks nRet)
    (H : Handlers σ) (sockfd : ℕ) (events : BitVec 32) :
    let y := if x.nRet < 0 then x.close H sockfd else x
    y.nRet = latest nRet (Handled.mk sockfd events y.calls).results ∧
      (Handled.mk sockfd events y.calls).closes = if y.nRet < 0 then [sockfd] else [] := by
  obtain ⟨hnRet, hcloses⟩ := h sockfd events
  by_cases hneg : x.nRet < 0
  · have hneg' : (x.close H sockfd).nRet < 0 := hneg
    simp only [hneg, hneg', if_true]
    constructor
    · simpa [EventState.close, Handled.results, List.filter_append] using hnRet
    · simpa [EventState.close, Handled.closes, List.filter_append] using hcloses
  · simp only [hneg, if_false]
    exact ⟨hnRet, hcloses⟩

theorem onEvent_spec (H : Handlers σ) (sockfd : ℕ) (events : BitVec 32) (nRet : ℤ) (world : σ) :
    let x := onEvent H sockfd events ⟨nRet, world, []⟩
    let h : Handled := ⟨sockfd, events, x.calls⟩
    x.nRet = latest nRet h.results ∧ h.closes = if x.nRet < 0 then [sockfd] else [] := by
  have hite : ∀ (b : Bool) (x : EventState σ) (name : HandlerName) (handler : ℕ → σ → ℤ × σ),
      name ≠ .iClose → x.Tracks nRet →
      (if b then x.invoke name handler sockfd else x).Tracks nRet := by
    intro b x name handler hname hx
    cases b
    · exact hx
    · exact hx.invoke hname handler sockfd
  have hstart : (⟨nRet, world, []⟩ : EventState σ).Tracks nRet := fun _ _ => ⟨rfl, rfl⟩
  have hread := hite (has events EPOLLIN) _ .iRead H.iRead (by decide) hstart
  have hwrite := hite (has events EPOLLOUT) _ .iWrite H.iWrite (by decide) hread
  have herror := hite (has events (EPOLLHUP ||| EPOLLERR ||| EPOLLRDHUP)) _ .iError H.iError
    (by decide) hwrite
  exact herror.close H sockfd events

/-- The last result over all events decides at every event. -/
theorem onBatch_spec (H : Handlers σ) (batch : List (ℕ × BitVec 32)) (nRet : ℤ) (world : σ) :
    (onBatch H batch nRet world).2.1 =
        latest nRet ((onBatch H batch nRet world).1.flatMap Handled.results) ∧
      ∀ pre h post, (onBatch H batch nRet world).1 = pre ++ h :: post →
        h.closes = if latest nRet (pre.flatMap Handled.results ++ h.results) < 0 then [h.sockfd]
          else [] := by
  induction batch generalizing nRet world with
  | nil => exact ⟨rfl, fun pre h post he => by simp [onBatch] at he⟩
  | cons ev batch ih =>
    obtain ⟨sockfd, events⟩ := ev
    obtain ⟨hnRet, hcloses⟩ := onEvent_spec H sockfd events nRet world
    simp only [onBatch]
    generalize onEvent H sockfd events ⟨nRet, world, []⟩ = x at hnRet hcloses ⊢
    obtain ⟨hlast, hrest⟩ := ih x.nRet x.world
    refine ⟨?_, fun pre h post he => ?_⟩
    · rw [hlast, List.flatMap_cons, latest_append, ← hnRet]
    · cases pre with
      | nil =>
        obtain ⟨rfl, -⟩ := List.cons.inj he
        rw [hcloses, hnRet]
        rfl
      | cons h' pre =>
        obtain ⟨rfl, htail⟩ := List.cons.inj he
        rw [hrest pre h post htail, List.flatMap_cons, List.append_assoc, latest_append nRet,
          ← hnRet]

theorem onBatches_eq (H : Handlers σ) (batches : List (List (ℕ × BitVec 32))) (nRet : ℤ)
    (world : σ) : onBatches H batches nRet world = onBatch H batches.flatten nRet world := by
  have happend : ∀ (batch batch' : List (ℕ × BitVec 32)) (nRet : ℤ) (world : σ),
      onBatch H (batch ++ batch') nRet world =
        ((onBatch H batch nRet world).1 ++
            (onBatch H batch' (onBatch H batch nRet world).2.1 (onBatch H batch nRet world).2.2).1,
          (onBatch H batch' (onBatch H batch nRet world).2.1
            (onBatch H batch nRet world).2.2).2) := by
    intro batch batch'
    induction batch with
    | nil => intro nRet world; rfl
    | cons ev batch ih =>
      intro nRet world
      obtain ⟨sockfd, events⟩ := ev
      simp only [List.cons_append, onBatch, ih]
  induction batches generalizing nRet world with
  | nil => rfl
  | cons batch batches ih =>
    simp only [onBatches, List.flatten_cons, happend, ih]

theorem closesFailed_iff {h : Handled} {before : List ℤ}
    (hc : h.closes = if latest (-1) (before ++ h.results) < 0 then [h.sockfd] else []) :
    h.ClosesFailed ↔ h.Unmasked before := by
  have hmatch : h.ClosesFailed ↔
      (latest (-1) (before ++ h.results) < 0 ↔ ∃ r ∈ h.results, r < 0) := by
    rw [Handled.ClosesFailed, hc]
    split_ifs with hneg hex hex <;> simp [hneg, hex]
  rw [hmatch, latest_append, Handled.Unmasked]
  cases hr : h.results using List.reverseRecOn with
  | nil =>
    cases hb : before.getLast? with
    | none => simp [latest, hb]
    | some r => simp [latest, hb]
  | append_singleton rs r =>
    have hlast : latest (latest (-1) before) (rs ++ [r]) = r := by simp [latest]
    have hfail : r < 0 → ∃ r' ∈ rs ++ [r], r' < 0 := fun hneg => ⟨r, by simp, hneg⟩
    rw [hlast]
    simp only [List.getLast?_concat, Option.mem_def, Option.some.injEq, exists_eq_left']
    constructor
    · intro hiff
      exact ⟨hiff.mpr, by simp⟩
    · rintro ⟨hmasked, -⟩
      exact ⟨hfail, hmasked⟩

/-- The event loop closes exactly the failed descriptors when, and only when, no failure is
hidden and no event without a handler finds a failure left over. -/
theorem closesFailed_all_iff (H : Handlers σ) (batches : List (List (ℕ × BitVec 32))) (world : σ) :
    (∀ h ∈ iEpollWait H batches world, h.ClosesFailed) ↔
      ∀ pre h post, iEpollWait H batches world = pre ++ h :: post →
        h.Unmasked (pre.flatMap Handled.results) := by
  have hspec := (onBatch_spec H batches.flatten (-1) world).2
  rw [← onBatches_eq] at hspec
  constructor
  · intro hall pre h post he
    exact (closesFailed_iff (hspec pre h post he)).mp (hall h (by rw [he]; simp))
  · intro hall h hmem
    obtain ⟨pre, post, he⟩ := List.append_of_mem hmem
    exact (closesFailed_iff (hspec pre h post he)).mpr (hall pre h post he)

/-- `iRead` fails and `iWrite` succeeds for one event: the descriptor stays open. -/
theorem not_closesFailed :
    ¬∀ (H : Handlers Unit) (batches : List (List (ℕ × BitVec 32))),
      ∀ h ∈ iEpollWait H batches (), h.ClosesFailed := by
  intro h
  have hone := h ⟨fun _ _ => (-1, ()), fun _ _ => (0, ()), fun _ _ => (-1, ()), fun _ _ => (0, ())⟩
    [[(7, EPOLLIN ||| EPOLLOUT)]] ⟨7, EPOLLIN ||| EPOLLOUT, [⟨.iRead, 7, -1⟩, ⟨.iWrite, 7, 0⟩]⟩
    (by decide)
  simp [Handled.ClosesFailed, Handled.closes, Handled.results] at hone

end EpollThreads.Events
