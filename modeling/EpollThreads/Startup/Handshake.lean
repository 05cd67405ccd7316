import EpollThreads.Shutdown.Teardown
import EpollThreads.Startup.ListenDescriptor

/-!
# The listener waits for its socket

The constructor of `ListenThread` starts the workers and the listener, which waits
in `Suspend` until `Bind` has a socket and calls `Resume`. Both are made of
SIGUSR1: every `iThread` constructor blocks it in the thread that runs it, a new
thread inherits the mask, `sigwait` takes it when it is pending, for the thread or
for the process, and a second one is not counted. Anybody may send SIGUSR1 to the
process. The runs here end where a termination signal arrives.
-/

namespace EpollThreads.Startup

open Foundations Logging Config Shutdown
open Dispatch (Thread)

/-- Where `main` is: before `new ListenThread()`, in the constructor with so many workers made,
and in `Bind` with these calls still to make. -/
inductive MainPc
  | fresh
  | creating (i : ℕ)
  | calling (todo : List Call)
  deriving DecidableEq

/-- The listener before its `sigwait`, in it, and in its loop. -/
inductive SuspendPc
  | starting
  | waiting
  | running
  deriving DecidableEq

/-- The process is gone, or `pthread_kill` was called with an `m_pid` that was never set. -/
inductive Ending
  | killed
  | undefined
  deriving DecidableEq

/-- The threads, SIGUSR1 in their masks and pending, `m_pid` of the listener and `m_sockfd`. -/
structure Handshake (n : ℕ) where
  main : MainPc
  listener : Option SuspendPc
  alive : List (Thread n)
  blocked : Thread n → Bool
  pending : Thread n → Bool
  shared : Bool
  pid : Option (Thread n)
  sockfd : ℤ
  ended : Option Ending

inductive HandshakeAct (n : ℕ)
  | mask
  | createWorker (w : Fin n) (ok : Bool)
  | createListener (ok : Bool)
  | call
  | external
  | suspend
  | wake
  | listen
  deriving DecidableEq

namespace Handshake

variable {n : ℕ}

/-- `MaskSIGUSR1` in the thread that runs `main`. -/
def mask (s : Handshake n) : Handshake n :=
  { s with blocked := Function.update s.blocked .main true }

/-- `pthread_create` by `main`. -/
def create (s : Handshake n) (t : Thread n) : Handshake n :=
  { s with
    alive := t :: s.alive
    blocked := Function.update s.blocked t (s.blocked .main)
    pending := Function.update s.pending t false }

/-- A call of `Bind`; `iSocket::Bind` gets `m_sockfd` by reference. -/
def perform (net : Net) (s : Handshake n) : Call → Handshake n
  | .socket => { s with sockfd := net.socket }
  | .resume =>
    match s.pid with
    | some t =>
      if s.blocked t then { s with pending := Function.update s.pending t true }
      else { s with ended := some .killed }
    | none => { s with ended := some .undefined }
  | _ => s

/-- `sigwait` takes the signal that is pending for the thread before that of the process. -/
def take (s : Handshake n) : Handshake n :=
  if s.pending .listener then
    { s with pending := Function.update s.pending .listener false, listener := some .running }
  else { s with shared := false, listener := some .running }

/-- One step. A failed `pthread_create` goes unnoticed. SIGUSR1 that some thread does not block
ends the process. -/
def act (net : Net) (calls : List Call) (s : Handshake n) : HandshakeAct n → Option (Handshake n)
  | .mask => if s.main = .fresh then some { s.mask with main := .creating 0 } else none
  | .createWorker w ok =>
    if s.main = .creating w then
      some { (if ok then s.mask.create (.worker w) else s.mask) with main := .creating (w + 1) }
    else none
  | .createListener ok =>
    if s.main = .creating n then
      if ok then
        some { s.create .listener with
          main := .calling calls, listener := some .starting, pid := some .listener }
      else some { s with main := .calling calls }
    else none
  | .call =>
    match s.main with
    | .calling (c :: todo) => some { s.perform net c with main := .calling todo }
    | _ => none
  | .external =>
    if s.alive.all s.blocked then some { s with shared := true }
    else some { s with ended := some .killed }
  | .suspend =>
    if s.listener = some .starting then some { s with listener := some .waiting } else none
  | .wake =>
    if s.listener = some .waiting ∧ (s.pending .listener ∨ s.shared) then some s.take else none
  | .listen => if s.listener = some .running then some s else none

def step (net : Net) (calls : List Call) (s : Handshake n) (a : HandshakeAct n) :
    Option (Handshake n) :=
  if s.ended = none then s.act net calls a else none

/-- The process runs `main` alone, with SIGUSR1 blocked or not. -/
structure Start (s : Handshake n) : Prop where
  main : s.main = .fresh
  listener : s.listener = none
  alive : s.alive = [.main]
  pending : ∀ t, s.pending t = false
  shared : s.shared = false
  pid : s.pid = none
  sockfd : s.sockfd = -1
  ended : s.ended = none

end Handshake

/-- The start of a server with `n` workers whose `Bind` makes these calls. -/
def handshakeMachine (n : ℕ) (net : Net) (calls : List Call) :
    Machine (Handshake n) (HandshakeAct n) where
  start := Handshake.Start
  step := Handshake.step net calls

section Calls

variable {net : Net} {g : SERVER} {held : Bool}

/-- A `Bind` that fails with an open socket does not get to `Resume`. -/
theorem resume_notMem_of_abandon {b : Binding} (hb : .resume ∉ b.calls)
    (h : iSocketBind net g.verbosity (some g.bindaddr) (.ofInt g.port) ⟨held, -1, []⟩ =
      b.abandon g.verbosity) : .resume ∉ (listenThreadBind net g held).calls := by
  simp only [listenThreadBind, h, Binding.abandon, Binding.warn]
  cases myepollLog g.verbosity MY_WARNING b.held with
  | none => exact hb
  | some held' =>
    simp only [if_true, Binding.call]
    cases myepollLog g.verbosity MY_WARNING held' <;> simpa [BindResult.calls] using hb

/-- `Resume` is the last call of a `Bind` that has gone through all the others. -/
theorem calls_of_resume (h : .resume ∈ (listenThreadBind net g held).calls) :
    net.socket ≠ -1 ∧ ∃ addr, requested net (some g.bindaddr) = some addr ∧
      (listenThreadBind net g held).calls =
        [.socket, .setsockopt net.socket, .bind net.socket addr (.ofInt g.port),
          .listen net.socket LISTEN_POOL_SZ, .resume] := by
  have hsock := socket_of_resume h
  refine ⟨hsock, ?_⟩
  cases haddr : requested net (some g.bindaddr) with
  | none =>
    refine absurd h (resume_notMem_of_abandon (b := ⟨held, net.socket, [.socket,
      .setsockopt net.socket]⟩) (by simp) ?_)
    simp [iSocketBind, hsock, haddr, Binding.call]
  | some addr =>
    refine ⟨addr, rfl, ?_⟩
    by_cases hbind : net.bind addr (.ofInt g.port) = -1
    · refine absurd h (resume_notMem_of_abandon (b := ⟨held, net.socket, [.socket,
        .setsockopt net.socket, .bind net.socket addr (.ofInt g.port)]⟩) (by simp) ?_)
      simp [iSocketBind, hsock, haddr, hbind, Binding.call]
    · by_cases hlisten : net.listen = -1
      · refine absurd h (resume_notMem_of_abandon (b := ⟨held, net.socket, [.socket,
          .setsockopt net.socket, .bind net.socket addr (.ofInt g.port),
          .listen net.socket LISTEN_POOL_SZ]⟩) (by simp) ?_)
        simp [iSocketBind, hsock, haddr, hbind, hlisten, Binding.call]
      · simp [listenThreadBind, iSocketBind, hsock, haddr, hbind, hlisten, Binding.call,
          BindResult.calls]

theorem Binding.warn_calls {c : Call} {b : Binding} {verbosity : ℤ} {after : Binding → BindResult}
    (hb : c ∈ b.calls) (h : ∀ held, c ∈ (after { b with held }).calls) :
    c ∈ (b.warn verbosity after).calls := by
  unfold warn
  cases myepollLog verbosity MY_WARNING b.held with
  | none => exact hb
  | some held => exact h held

theorem Binding.abandon_calls {c : Call} {b : Binding} {verbosity : ℤ} (hb : c ∈ b.calls) :
    c ∈ (b.abandon verbosity).calls :=
  Binding.warn_calls hb fun _ => List.mem_append_left _ hb

theorem iSocketBind_calls {verbosity : ℤ} {bindaddr : Option (List Byte)} {nPort : UInt16}
    {b : Binding} : .socket ∈ (iSocketBind net verbosity bindaddr nPort b).calls := by
  simp only [iSocketBind]
  by_cases hsock : net.socket = -1
  · rw [if_pos hsock]
    exact Binding.warn_calls (by simp [Binding.call]) fun _ => by
      simp [BindResult.calls, Binding.call]
  · rw [if_neg hsock]
    cases requested net bindaddr with
    | none => exact Binding.abandon_calls (by simp [Binding.call])
    | some addr =>
      simp only
      split_ifs
      · exact Binding.abandon_calls (by simp [Binding.call])
      · exact Binding.abandon_calls (by simp [Binding.call])
      · simp [BindResult.calls, Binding.call]

theorem socket_mem_calls : .socket ∈ (listenThreadBind net g held).calls := by
  have hmem : .socket ∈ (iSocketBind net g.verbosity (some g.bindaddr) (.ofInt g.port)
      ⟨held, -1, []⟩).calls := iSocketBind_calls
  unfold listenThreadBind
  cases hbind : iSocketBind net g.verbosity (some g.bindaddr) (.ofInt g.port) ⟨held, -1, []⟩ with
  | blocked b => rwa [hbind] at hmem
  | returned nRet b =>
    rw [hbind] at hmem
    simp only
    split_ifs
    · exact Binding.warn_calls hmem fun _ => hmem
    · exact List.mem_append_left _ hmem

end Calls

namespace Handshake

variable {n : ℕ} {net : Net} {calls : List Call} {s s' : Handshake n} {a : HandshakeAct n}

/-- `Bind` is over, and has called `Resume`. -/
def Resumed (calls : List Call) (s : Handshake n) : Prop :=
  s.main = .calling [] ∧ .resume ∈ calls

/-- What holds of every thread and signal; `sent` says whether somebody else sent SIGUSR1. -/
structure Sound (net : Net) (calls : List Call) (sent : Prop) (s : Handshake n) : Prop where
  fresh : s.main = .fresh → s.alive = [.main]
  blocked : s.main ≠ .fresh → ∀ t ∈ s.alive, s.blocked t = true
  main : .main ∈ s.alive
  lives : s.listener.isSome → .listener ∈ s.alive
  killed : s.ended = some .killed → s.main = .fresh ∧ sent
  undefined : s.ended = some .undefined → s.pid = none ∧ Resumed calls s
  shared : s.shared = true → sent
  made : ∀ todo, s.main = .calling todo → ∃ made, calls = made ++ todo ∧
    (.socket ∈ made → s.sockfd = net.socket)
  pid : s.pid = if s.listener.isSome then some .listener else none
  pending : s.pending .listener = true → Resumed calls s
  running : s.listener = some .running → Resumed calls s ∨ sent
  owed : Resumed calls s → s.ended = none → s.listener = some .running ∨
    s.listener.isSome ∧ s.pending .listener = true

theorem sound_of_start (h : s.Start) : Sound net calls False s where
  fresh _ := h.alive
  blocked hne := absurd h.main hne
  main := by simp [h.alive]
  lives hl := by simp [h.listener] at hl
  killed he := by simp [h.ended] at he
  undefined he := by simp [h.ended] at he
  shared hs := by simp [h.shared] at hs
  made todo ht := by simp [h.main] at ht
  pid := by simp [h.pid, h.listener]
  pending hp := by simp [h.pending] at hp
  running hr := by simp [h.listener] at hr
  owed hr := by simp [Resumed, h.main] at hr

/-- `Resume` is called at most once, and last. -/
def ResumeLast (calls : List Call) : Prop :=
  ∀ made c todo, calls = made ++ c :: todo → (.resume ∈ calls ∧ todo = [] ↔ c = .resume)

variable {sent : Prop}

theorem not_resumed (h : ∀ todo, s.main ≠ .calling todo) : ¬Resumed calls s := fun hr => h _ hr.1

theorem Sound.external (h : Sound net calls sent s)
    (hstep : s.act net calls .external = some s') : Sound net calls True s' := by
  simp only [act] at hstep
  split_ifs at hstep with hall
  · obtain rfl := Option.some.inj hstep
    exact { h with
      killed := fun hk => ⟨(h.killed hk).1, trivial⟩
      shared := fun _ => trivial
      running := fun _ => Or.inr trivial }
  · obtain rfl := Option.some.inj hstep
    have hfresh : s.main = .fresh := by
      by_contra hne
      exact hall (List.all_eq_true.mpr (h.blocked hne))
    exact { h with
      killed := fun _ => ⟨hfresh, trivial⟩
      undefined := nofun
      shared := fun _ => trivial
      running := fun _ => Or.inr trivial
      owed := nofun }

/-- Before `Bind` the signals of the threads are not at stake. -/
theorem Sound.early (h : Sound net calls sent s) (he : s.ended = none)
    (hm : ∀ todo, s.main ≠ .calling todo) (hm' : s'.main ≠ .fresh)
    (hnew : ∀ todo, s'.main = .calling todo → todo = calls ∧ calls ≠ [])
    (hsame : s'.shared = s.shared ∧ s'.ended = s.ended)
    (hblocked : ∀ t ∈ s'.alive, s'.blocked t = true) (hmain : .main ∈ s'.alive)
    (hlives : s'.listener.isSome → .listener ∈ s'.alive)
    (hpid : s'.pid = if s'.listener.isSome then some .listener else none)
    (hpending : s'.pending .listener = true → s.pending .listener = true)
    (hrunning : s'.listener = some .running → s.listener = some .running) :
    Sound net calls sent s' := by
  have hno : ¬Resumed calls s := not_resumed hm
  obtain ⟨hshared, hended⟩ := hsame
  refine ⟨fun hf => absurd hf hm', fun _ => hblocked, hmain, hlives, ?_, ?_, ?_, ?_, hpid,
    ?_, ?_, ?_⟩
  · rw [hended, he]
    exact nofun
  · rw [hended, he]
    exact nofun
  · rw [hshared]
    exact h.shared
  · intro todo ht
    obtain ⟨rfl, -⟩ := hnew todo ht
    exact ⟨[], rfl, fun hmem => by cases hmem⟩
  · exact fun hp => absurd (h.pending (hpending hp)) hno
  · exact fun hr => (h.running (hrunning hr)).imp (fun hres => absurd hres hno) id
  · intro hres
    obtain ⟨heq, hne⟩ := hnew [] hres.1
    exact absurd heq.symm hne

theorem mem_mask_blocked {t : Thread n} (h : s.main = .fresh → s.alive = [.main])
    (hb : s.main ≠ .fresh → ∀ t ∈ s.alive, s.blocked t = true) (ht : t ∈ s.alive) :
    s.mask.blocked t = true := by
  by_cases hmain : t = .main
  · subst hmain
    simp [mask]
  · have hne : s.main ≠ .fresh := fun hf => hmain (by simpa [h hf] using ht)
    simpa [mask, Function.update_of_ne hmain] using hb hne t ht

/-- A thread is created with the mask of its creator. -/
theorem blocked_create {t x : Thread n} (hmain : s.blocked .main = true)
    (h : ∀ t ∈ s.alive, s.blocked t = true) (hx : x ∈ (s.create t).alive) :
    (s.create t).blocked x = true := by
  by_cases he : x = t
  · subst he
    simp [create, hmain]
  · have hx' : x ∈ s.alive := (List.mem_cons.mp hx).resolve_left he
    simpa [create, Function.update_of_ne he] using h x hx'

theorem Sound.ctor (h : Sound net calls sent s) (he : s.ended = none) (hcalls : calls ≠ [])
    (ha : a = .mask ∨ (∃ w ok, a = .createWorker w ok) ∨ ∃ ok, a = .createListener ok)
    (hstep : s.act net calls a = some s') : Sound net calls sent s' := by
  have hmasked : ∀ t ∈ s.mask.alive, s.mask.blocked t = true := fun t ht =>
    mem_mask_blocked h.fresh h.blocked ht
  rcases ha with rfl | ⟨w, ok, rfl⟩ | ⟨ok, rfl⟩
  · simp only [act, Option.ite_none_right_eq_some, Option.some.injEq] at hstep
    obtain ⟨hm, rfl⟩ := hstep
    exact h.early he (by simp [hm]) (by simp) (by simp) ⟨rfl, rfl⟩ hmasked h.main h.lives h.pid
      id id
  · simp only [act, Option.ite_none_right_eq_some, Option.some.injEq] at hstep
    obtain ⟨hm, rfl⟩ := hstep
    cases ok with
    | false =>
      exact h.early he (by simp [hm]) (by simp) (by simp) ⟨rfl, rfl⟩ hmasked h.main h.lives h.pid
        id id
    | true =>
      refine h.early he (by simp [hm]) (by simp) (by simp) ⟨rfl, rfl⟩
        (fun t ht => blocked_create (hmasked _ h.main) hmasked ht)
        (List.mem_cons_of_mem _ h.main) (fun hl => List.mem_cons_of_mem _ (h.lives hl)) h.pid
        (fun hp => ?_) id
      simpa [create, mask] using hp
  · simp only [act, Option.ite_none_right_eq_some] at hstep
    obtain ⟨hm, hstep⟩ := hstep
    have hne : s.main ≠ .fresh := by simp [hm]
    have hall := h.blocked hne
    cases ok with
    | false =>
      obtain rfl := Option.some.inj hstep
      exact h.early he (by simp [hm]) (by simp) (by simp [hcalls]) ⟨rfl, rfl⟩ hall h.main
        h.lives h.pid id id
    | true =>
      obtain rfl := Option.some.inj hstep
      exact h.early he (by simp [hm]) (by simp) (by simp [hcalls]) ⟨rfl, rfl⟩
        (fun t ht => blocked_create (hall _ h.main) hall ht) (List.mem_cons_of_mem _ h.main)
        (fun _ => List.mem_cons_self) rfl (fun hp => by simp [create] at hp) nofun

theorem Sound.calling (h : Sound net calls sent s) (he : s.ended = none) {c : Call}
    {todo made : List Call} (hm : s.main = .calling (c :: todo))
    (hmade : calls = made ++ c :: todo) (hres : ¬(.resume ∈ calls ∧ todo = [])) {sockfd : ℤ}
    (hsock : .socket ∈ made ++ [c] → sockfd = net.socket) :
    Sound net calls sent { s with main := .calling todo, sockfd := sockfd } := by
  have hno : ¬Resumed calls s := fun hr => absurd hr.1 (by simp [hm])
  have hno' : ¬Resumed calls { s with main := .calling todo, sockfd := sockfd } := fun hr =>
    hres ⟨hr.2, MainPc.calling.inj hr.1⟩
  refine { h with
    fresh := nofun
    blocked := fun _ => h.blocked (by simp [hm])
    killed := fun hk => by simp [he] at hk
    undefined := fun hu => by simp [he] at hu
    made := fun todo' ht => ⟨made ++ [c], ?_, hsock⟩
    pending := fun hp => absurd (h.pending hp) hno
    running := fun hr => (h.running hr).imp (fun hres => absurd hres hno) id
    owed := fun hr => absurd hr hno' }
  rw [← MainPc.calling.inj ht, hmade, List.append_assoc]
  rfl

theorem Sound.call (h : Sound net calls sent s) (he : s.ended = none) (hlast : ResumeLast calls)
    (hstep : s.act net calls .call = some s') : Sound net calls sent s' := by
  simp only [act] at hstep
  split at hstep
  · next c todo hm =>
    obtain ⟨made, hmade, hsock⟩ := h.made _ hm
    have hiff := hlast made c todo hmade
    obtain rfl := Option.some.inj hstep
    cases c with
    | socket =>
      exact h.calling he hm hmade (fun hr => by simpa using hiff.mp hr) fun _ => rfl
    | setsockopt | bind | listen | close =>
      refine h.calling he hm hmade (fun hr => by simpa using hiff.mp hr) fun hmem => hsock ?_
      simpa using hmem
    | resume =>
      obtain ⟨hmem, rfl⟩ := hiff.mpr rfl
      have hno : ¬Resumed calls s := fun hr => absurd hr.1 (by simp [hm])
      have hsock' : ∀ todo, MainPc.calling [] = .calling todo → ∃ made', calls = made' ++ todo ∧
          (.socket ∈ made' → s.sockfd = net.socket) := by
        intro todo ht
        rw [← MainPc.calling.inj ht]
        refine ⟨made ++ [.resume], by simpa using hmade, fun hmem => hsock ?_⟩
        simpa using hmem
      cases hpid : s.pid with
      | some t =>
        have ht : t = .listener ∧ s.listener.isSome := by
          have hp := h.pid
          rw [hpid] at hp
          split_ifs at hp with hl
          exact ⟨Option.some.inj hp, hl⟩
        obtain ⟨rfl, hlistener⟩ := ht
        have hp := h.pid
        rw [hpid] at hp
        have hblocked := h.blocked (by simp [hm]) _ (h.lives hlistener)
        simp only [perform, hpid, hblocked, if_true]
        exact { h with
          fresh := nofun
          blocked := fun _ => h.blocked (by simp [hm])
          killed := fun hk => by simp [he] at hk
          undefined := fun hu => by simp [he] at hu
          made := hsock'
          pid := hp
          pending := fun _ => ⟨rfl, hmem⟩
          running := fun _ => Or.inl ⟨rfl, hmem⟩
          owed := fun _ _ => Or.inr ⟨hlistener, by simp⟩ }
      | none =>
        have hp := h.pid
        rw [hpid] at hp
        simp only [perform, hpid]
        exact { h with
          fresh := nofun
          blocked := fun _ => h.blocked (by simp [hm])
          killed := nofun
          undefined := fun _ => ⟨rfl, rfl, hmem⟩
          made := hsock'
          pid := hp
          pending := fun _ => ⟨rfl, hmem⟩
          running := fun _ => Or.inl ⟨rfl, hmem⟩
          owed := nofun }
  · cases hstep

theorem Sound.listener (h : Sound net calls sent s)
    (ha : a = .suspend ∨ a = .wake ∨ a = .listen) (hstep : s.act net calls a = some s') :
    Sound net calls sent s' := by
  rcases ha with rfl | rfl | rfl
  · simp only [act, Option.ite_none_right_eq_some, Option.some.injEq] at hstep
    obtain ⟨hl, rfl⟩ := hstep
    have hpid := h.pid
    rw [hl] at hpid
    exact { h with
      lives := fun _ => h.lives (by simp [hl])
      pid := hpid
      running := nofun
      owed := fun hr he => Or.inr ⟨rfl, ((h.owed hr he).resolve_left (by simp [hl])).2⟩ }
  · simp only [act, Option.ite_none_right_eq_some, Option.some.injEq] at hstep
    obtain ⟨⟨hl, hsignal⟩, rfl⟩ := hstep
    have hpid := h.pid
    rw [hl] at hpid
    have hlives : .listener ∈ s.alive := h.lives (by simp [hl])
    unfold take
    split_ifs with hp
    · exact { h with
        lives := fun _ => hlives
        pid := hpid
        pending := fun hp' => by simp at hp'
        running := fun _ => Or.inl (h.pending hp)
        owed := fun _ _ => Or.inl rfl }
    · have hshared : s.shared = true := hsignal.resolve_left hp
      exact { h with
        lives := fun _ => hlives
        shared := nofun
        pid := hpid
        running := fun _ => Or.inr (h.shared hshared)
        owed := fun _ _ => Or.inl rfl }
  · simp only [act, Option.ite_none_right_eq_some, Option.some.injEq] at hstep
    exact hstep.2 ▸ h

theorem Sound.mono (h : Sound net calls sent s) {sent' : Prop} (hs : sent → sent') :
    Sound net calls sent' s :=
  { h with
    killed := fun hk => ⟨(h.killed hk).1, hs (h.killed hk).2⟩
    shared := fun hsh => hs (h.shared hsh)
    running := fun hr => (h.running hr).imp id hs }

theorem Sound.of_reaches {tr : List (HandshakeAct n)} (hcalls : calls ≠ [])
    (hlast : ResumeLast calls) (h : (handshakeMachine n net calls).Reaches tr s) :
    Sound net calls (.external ∈ tr) s := by
  refine h.history (Q := fun tr s => Sound net calls (.external ∈ tr) s)
    (fun hs => (sound_of_start hs).mono nofun) ?_
  intro tr s a s' _ hsound hstep
  change s.step net calls a = some s' at hstep
  simp only [step, Option.ite_none_right_eq_some] at hstep
  obtain ⟨he, hstep⟩ := hstep
  have hmono : .external ∈ tr → .external ∈ tr ++ [a] := List.mem_append_left _
  cases a with
  | external => exact (hsound.external hstep).mono fun _ => by simp
  | mask => exact (hsound.ctor he hcalls (Or.inl rfl) hstep).mono hmono
  | createWorker w ok =>
    exact (hsound.ctor he hcalls (Or.inr (Or.inl ⟨w, ok, rfl⟩)) hstep).mono hmono
  | createListener ok =>
    exact (hsound.ctor he hcalls (Or.inr (Or.inr ⟨ok, rfl⟩)) hstep).mono hmono
  | call => exact (hsound.call he hlast hstep).mono hmono
  | suspend => exact (hsound.listener (Or.inl rfl) hstep).mono hmono
  | wake => exact (hsound.listener (Or.inr (Or.inl rfl)) hstep).mono hmono
  | listen => exact (hsound.listener (Or.inr (Or.inr rfl)) hstep).mono hmono

/-- An owed signal is pending, so the listener's own steps take it. -/
theorem Sound.wakes (h : Sound net calls sent s) (hr : Resumed calls s) (he : s.ended = none) :
    ∃ tr t, tr ∈ [[], [.wake], [.suspend, .wake]] ∧
      (handshakeMachine n net calls).Run s tr t ∧ t.listener = some .running := by
  have hstep (s : Handshake n) (a : HandshakeAct n) (he : s.ended = none) :
      (handshakeMachine n net calls).step s a = s.act net calls a := if_pos he
  rcases h.owed hr he with hl | ⟨hsome, hp⟩
  · exact ⟨[], s, by simp, .nil s, hl⟩
  obtain ⟨pc, hl⟩ := Option.isSome_iff_exists.mp hsome
  cases pc with
  | running => exact ⟨[], s, by simp, .nil s, hl⟩
  | waiting =>
    refine ⟨[.wake], s.take, by simp, .single ?_, by simp [take, hp]⟩
    rw [hstep s _ he]
    simp [act, hl, hp]
  | starting =>
    let u : Handshake n := { s with listener := some .waiting }
    have hsuspend : (handshakeMachine n net calls).step s .suspend = some u := by
      rw [hstep s _ he]
      simp [act, hl, u]
    have hwake : (handshakeMachine n net calls).step u .wake = some u.take := by
      rw [hstep u _ he]
      simp [act, u, hp]
    refine ⟨[.suspend, .wake], u.take, by simp, ?_, by simp [take, u, hp]⟩
    exact (Machine.Run.single hsuspend).append (.single hwake)

theorem resumeLast_of_notMem (h : .resume ∉ calls) : ResumeLast calls := by
  rintro made c todo rfl
  refine ⟨fun hr => absurd hr.1 h, ?_⟩
  rintro rfl
  simp at h

theorem resumeLast_concat (h : .resume ∉ calls) : ResumeLast (calls ++ [.resume]) := by
  intro made c todo heq
  induction todo using List.reverseRecOn with
  | nil =>
    obtain ⟨-, hc⟩ := List.append_inj' heq rfl
    simp [List.singleton_inj.mp hc.symm]
  | append_singleton todo x _ =>
    have heq' : calls ++ [.resume] = (made ++ c :: todo) ++ [x] := by simpa using heq
    obtain ⟨rfl, -⟩ := List.append_inj' heq' rfl
    refine ⟨fun hr => by simp at hr, ?_⟩
    rintro rfl
    simp at h

theorem resumeLast_bind {g : SERVER} {held : Bool} :
    ResumeLast (listenThreadBind net g held).calls := by
  by_cases hr : .resume ∈ (listenThreadBind net g held).calls
  · obtain ⟨-, addr, -, hcalls⟩ := calls_of_resume hr
    have hbefore : .resume ∉ [Call.socket, .setsockopt net.socket,
        .bind net.socket addr (.ofInt g.port), .listen net.socket LISTEN_POOL_SZ] := by simp
    rw [hcalls]
    exact resumeLast_concat hbefore
  · exact resumeLast_of_notMem hr

end Handshake

/-- The process survives its own SIGUSR1. The listener runs only with the socket of a `Bind` that
has gone through, unless somebody else woke it. It runs at the latest by its own steps once
`Resume` was called, however early; if it was never created, that call is undefined. -/
theorem listener_start {n : ℕ} {net : Net} {g : SERVER} {held : Bool} {tr : List (HandshakeAct n)}
    {s : Handshake n}
    (h : (handshakeMachine n net (listenThreadBind net g held).calls).Reaches tr s) :
    (s.ended = some .killed → s.main = .fresh ∧ .external ∈ tr) ∧
    (s.listener = some .running → .external ∉ tr → s.main = .calling [] ∧
      s.sockfd = net.socket ∧ net.socket ≠ -1 ∧
        ∃ addr, requested net (some g.bindaddr) = some addr ∧
        (listenThreadBind net g held).calls =
          [.socket, .setsockopt net.socket, .bind net.socket addr (.ofInt g.port),
            .listen net.socket LISTEN_POOL_SZ, .resume]) ∧
    (s.ended = some .undefined ↔
      Handshake.Resumed (listenThreadBind net g held).calls s ∧ s.listener = none) ∧
    (Handshake.Resumed (listenThreadBind net g held).calls s → s.ended = none →
      ∃ tr' t, tr' ∈ [[], [.wake], [.suspend, .wake]] ∧
        (handshakeMachine n net (listenThreadBind net g held).calls).Run s tr' t ∧
        t.listener = some .running) := by
  have hsocket : .socket ∈ (listenThreadBind net g held).calls := socket_mem_calls
  have hsound := Handshake.Sound.of_reaches (List.ne_nil_of_mem hsocket) Handshake.resumeLast_bind h
  refine ⟨hsound.killed, ?_, ?_, fun hr he => hsound.wakes hr he⟩
  · intro hrunning hsent
    obtain ⟨hmain, hresume⟩ := (hsound.running hrunning).resolve_right hsent
    obtain ⟨made, hmade, hsockfd⟩ := hsound.made [] hmain
    rw [List.append_nil] at hmade
    obtain ⟨hsock, hcalls⟩ := calls_of_resume hresume
    exact ⟨hmain, hsockfd (hmade ▸ hsocket), hsock, hcalls⟩
  · constructor
    · intro hu
      obtain ⟨hpid, hr⟩ := hsound.undefined hu
      refine ⟨hr, ?_⟩
      rw [hsound.pid] at hpid
      split_ifs at hpid with hl
      simpa using hl
    · rintro ⟨hr, hnone⟩
      cases he : s.ended with
      | none => simpa [hnone] using hsound.owed hr he
      | some e =>
        cases e with
        | undefined => rfl
        | killed => exact absurd (hsound.killed he).1 (by simp [hr.1])

/-- `main` has begun; nothing is blocked or pending. -/
def atMain (n : ℕ) : Handshake n :=
  ⟨.fresh, none, [.main], fun _ => false, fun _ => false, false, none, -1, none⟩

theorem start_atMain (n : ℕ) : (atMain n).Start :=
  ⟨rfl, rfl, rfl, fun _ => rfl, rfl, rfl, rfl, rfl⟩

def localConfig : SERVER := { initServerConfig with bindaddr := ascii "127.0.0.1" }

/-- `Bind` is over before the listener gets to its `sigwait`. -/
def earlyResume : List (HandshakeAct 1) :=
  [.mask, .createWorker (Fin.last 0) true, .createListener true, .call, .call, .call, .call, .call]

theorem listener_start_early :
    ∃ s, (handshakeMachine 1 loopback (listenThreadBind loopback localConfig false).calls).Reaches
        earlyResume s ∧ s.listener = some .starting ∧
      ∃ tr t, tr ∈ [[], [.wake], [.suspend, .wake]] ∧
        (handshakeMachine 1 loopback (listenThreadBind loopback localConfig false).calls).Run
          s tr t ∧ t.listener = some .running :=
  have hreach := Machine.Reaches.of_isSome (M := handshakeMachine 1 loopback
    (listenThreadBind loopback localConfig false).calls) (start_atMain 1) earlyResume rfl
  ⟨_, hreach, rfl, (listener_start hreach).2.2.2 ⟨rfl, by decide⟩ rfl⟩

/-- SIGUSR1 from outside starts the listener without a socket. -/
example : ((handshakeMachine 0 loopback (listenThreadBind loopback localConfig false).calls).exec
    (atMain 0) [.mask, .createListener true, .suspend, .external, .wake]).map
      (fun s => (s.listener, s.sockfd)) = some (some .running, -1) := rfl

end EpollThreads.Startup
