import EpollThreads.Dispatch.AssignTask
import EpollThreads.Foundations.Descriptors
import EpollThreads.Startup.Bind
import EpollThreads.Startup.EventBuffer

/-!
# The number of the listening socket

`ListenThread::ListenThread` builds all workers, each with a descriptor of its own,
before `iSocket::Bind` creates the socket. `iSocket::Listen` puts that number into a
descriptor set once `Bind` has resumed the thread.
-/

namespace EpollThreads.Startup

open Foundations Logging Config

def FD_SETSIZE : ℤ := 1024

/-- `epoll_create` on the descriptors of the process. -/
def epollCreate (d : Descriptors) (size : ℤ) : ℤ × Descriptors :=
  if size ≤ 0 then (-1, d) else d.acquire

/-- What a constructor of `iEpoll` is answered. -/
def resources (new : ℤ → Option Block) (d : Descriptors) : Resources where
  epoll_create size := (epollCreate d size).1
  new := new

section Workers

variable (new : ℤ → Option Block) (verbosity : ℤ) (memory : ℕ → Address) (nCapacity : ℤ)

/-- The loop of `InitTaskThread` with the constructors it runs, up to worker `k`; no result where
one of them does not return. -/
def initTaskThread (d : Descriptors) (held : Bool) : ℕ → Option (List IEpoll × Descriptors × Bool)
  | 0 => some ([], d, held)
  | k + 1 => do
      let (workers, d, held) ← initTaskThread d held k
      let c ← IEpoll.construct (resources new d) verbosity (memory k) nCapacity held
      return (workers ++ [c.object], (epollCreate d nCapacity).2, c.held)

/-- `new ListenThread()` and then `Bind`, with 0, 1 and 2 open. -/
def startUp (net : Net) (g : SERVER) (held : Bool) (rlim_cur : UInt64) : Option BindResult := do
  let nCapacity ← GetWorkerCapacity g rlim_cur
  let (_, d, held) ← initTaskThread new g.verbosity memory nCapacity (.first 3 rlim_cur.toNat) held
    g.maxthreads.toNat
  return listenThreadBind { net with socket := d.acquire.1 } g held

end Workers

/-- `m_sockfd` -/
def BindResult.sockfd : BindResult → ℤ
  | .returned _ b => b.sockfd
  | .blocked b => b.sockfd

section Workers

variable {new : ℤ → Option Block} {verbosity : ℤ} {memory : ℕ → Address} {nCapacity : ℤ}
  {workers : List IEpoll} {d d' : Descriptors} {held held' : Bool} {m k limit : ℕ}

theorem initTaskThread_succ
    (h : initTaskThread new verbosity memory nCapacity d held (k + 1) =
      some (workers, d', held')) :
    ∃ workers₁ d₁ held₁ c,
      initTaskThread new verbosity memory nCapacity d held k = some (workers₁, d₁, held₁) ∧
      IEpoll.construct (resources new d₁) verbosity (memory k) nCapacity held₁ = some c ∧
      d' = (epollCreate d₁ nCapacity).2 := by
  simp only [initTaskThread, Option.bind_eq_bind, Option.bind_eq_some_iff] at h
  obtain ⟨⟨workers₁, d₁, held₁⟩, hfirst, c, hbuilt, h⟩ := h
  have hd := (Prod.mk.inj (Prod.mk.inj (Option.some.inj h)).2).1
  exact ⟨workers₁, d₁, held₁, c, hfirst, hbuilt, hd.symm⟩

theorem epollCreate_first (hcap : 0 < nCapacity) (hm : m < limit) :
    epollCreate (.first m limit) nCapacity = (↑m, .first (m + 1) limit) := by
  rw [epollCreate, if_neg (not_le.mpr hcap), Descriptors.acquire_first hm]

theorem construct_first (hcap : 0 < nCapacity) (hm : m < limit) {memory : Address} :
    IEpoll.construct (resources new (.first m limit)) verbosity memory nCapacity held =
      (new nCapacity).map fun (p : Block) => ⟨⟨m, nCapacity, p⟩, some ⟨p, nCapacity⟩, held⟩ := by
  have hfd : (resources new (.first m limit)).epoll_create nCapacity = m := by
    simp only [resources, epollCreate_first hcap hm]
  have hok : (resources new (.first m limit)).epoll_create nCapacity ≠ -1 := by omega
  rw [construct_eq hok, hfd]
  rfl

/-- Without a capacity no worker has a descriptor. -/
theorem initTaskThread_of_nonpos (hcap : nCapacity ≤ 0)
    (h : initTaskThread new verbosity memory nCapacity d held k = some (workers, d', held')) :
    d' = d := by
  induction k generalizing workers d' held' with
  | zero => exact (Prod.mk.inj (Prod.mk.inj (Option.some.inj h)).2).1.symm
  | succ k ih =>
    obtain ⟨_, _, _, _, hfirst, -, hd⟩ := initTaskThread_succ h
    rw [hd, epollCreate, if_pos hcap]
    exact ih hfirst

/-- With a capacity every worker has one, as long as there are enough: in order, from the first
free number on. -/
theorem initTaskThread_of_pos {p : Block} (hcap : 0 < nCapacity) (hnew : new nCapacity = some p)
    (hlimit : m + k ≤ limit) :
    initTaskThread new verbosity memory nCapacity (.first m limit) held k =
      some (Dispatch.initTaskThread (fun i => ⟨m + i, nCapacity, p⟩) k, .first (m + k) limit,
        held) := by
  induction k with
  | zero => rfl
  | succ k ih =>
    have hcreate := epollCreate_first hcap (show m + k < limit by omega)
    simp only [initTaskThread, ih (by omega), Option.bind_eq_bind, Option.bind_some,
      construct_first hcap (show m + k < limit by omega), hnew, Option.map_some, hcreate,
      Nat.cast_add]
    rfl

theorem new_of_initTaskThread (hcap : 0 < nCapacity) (hm : m < limit) (hk : 0 < k)
    (h : initTaskThread new verbosity memory nCapacity (.first m limit) held k =
      some (workers, d', held')) : ∃ p, new nCapacity = some p := by
  induction k generalizing workers d' held' with
  | zero => exact absurd hk (lt_irrefl 0)
  | succ k ih =>
    obtain ⟨workers₁, d₁, held₁, c, hfirst, hbuilt, -⟩ := initTaskThread_succ h
    rcases k.eq_zero_or_pos with rfl | hpos
    · obtain ⟨-, rfl, rfl⟩ : [] = workers₁ ∧ Descriptors.first m limit = d₁ ∧ held = held₁ := by
        simpa [initTaskThread] using hfirst
      rw [construct_first hcap hm] at hbuilt
      obtain ⟨p, hp, -⟩ := Option.map_eq_some_iff.mp hbuilt
      exact ⟨p, hp⟩
    · exact ih hpos hfirst

end Workers

section Binding

variable {net : Net} {verbosity : ℤ} {g : SERVER} {held : Bool}

theorem Binding.warn_sockfd {b : Binding} {after : Binding → BindResult}
    (h : ∀ b' : Binding, b'.sockfd = b.sockfd → (after b').sockfd = b.sockfd) :
    (b.warn verbosity after).sockfd = b.sockfd := by
  unfold Binding.warn
  cases myepollLog verbosity MY_WARNING b.held with
  | none => rfl
  | some held => exact h _ rfl

theorem Binding.abandon_sockfd {b : Binding} : (b.abandon verbosity).sockfd = b.sockfd :=
  Binding.warn_sockfd fun _ h => h

theorem iSocketBind_sockfd {bindaddr : Option (List Byte)} {nPort : UInt16} {b : Binding} :
    (iSocketBind net verbosity bindaddr nPort b).sockfd = net.socket := by
  simp only [iSocketBind]
  by_cases hsock : net.socket = -1
  · rw [if_pos hsock]
    exact Binding.warn_sockfd fun _ h => h
  · rw [if_neg hsock]
    cases requested net bindaddr with
    | none => exact Binding.abandon_sockfd
    | some addr =>
      simp only
      split_ifs
      · exact Binding.abandon_sockfd
      · exact Binding.abandon_sockfd
      · rfl

/-- Whatever becomes of it, the number in `m_sockfd` is what `socket()` returned. -/
theorem listenThreadBind_sockfd : (listenThreadBind net g held).sockfd = net.socket := by
  have hsockfd : (iSocketBind net g.verbosity (some g.bindaddr) (.ofInt g.port)
      ⟨held, -1, []⟩).sockfd = net.socket := iSocketBind_sockfd
  unfold listenThreadBind
  cases hbind : iSocketBind net g.verbosity (some g.bindaddr) (.ofInt g.port) ⟨held, -1, []⟩ with
  | blocked b => rwa [hbind] at hsockfd
  | returned nRet b =>
    have hb : b.sockfd = net.socket := by rwa [hbind] at hsockfd
    simp only
    split_ifs
    · have hwarn : (b.warn g.verbosity (.returned (-1))).sockfd = b.sockfd :=
        Binding.warn_sockfd fun _ h => h
      exact hwarn.trans hb
    · exact hb

/-- The thread is resumed only with a socket. -/
theorem socket_of_resume (h : .resume ∈ (listenThreadBind net g held).calls) :
    net.socket ≠ -1 := by
  intro hsock
  cases hlog : myepollLog g.verbosity MY_WARNING held with
  | none =>
    simp [listenThreadBind, iSocketBind, hsock, Binding.warn, Binding.call, hlog,
      BindResult.calls] at h
  | some held' =>
    cases hlog' : myepollLog g.verbosity MY_WARNING held' <;>
      simp [listenThreadBind, iSocketBind, hsock, Binding.warn, Binding.call, hlog, hlog',
        BindResult.calls] at h

end Binding

section StartUp

variable {net : Net} {g : SERVER} {held : Bool} {rlim_cur : UInt64} {new : ℤ → Option Block}
  {memory : ℕ → Address} {nCapacity : ℤ} {r : BindResult}

theorem startUp_eq_some (h : startUp new memory net g held rlim_cur = some r) :
    ∃ nCapacity workers d held', GetWorkerCapacity g rlim_cur = some nCapacity ∧
      initTaskThread new g.verbosity memory nCapacity (.first 3 rlim_cur.toNat) held
        g.maxthreads.toNat = some (workers, d, held') ∧
      r = listenThreadBind { net with socket := d.acquire.1 } g held' := by
  simp only [startUp, Option.bind_eq_bind, Option.bind_eq_some_iff] at h
  obtain ⟨nCapacity, hcap, ⟨workers, d, held'⟩, hinit, h⟩ := h
  exact ⟨nCapacity, workers, d, held', hcap, hinit, (Option.some.inj h).symm⟩

theorem startUp_of_pos {p : Block} (hcap : GetWorkerCapacity g rlim_cur = some nCapacity)
    (hpos : 0 < nCapacity) (hnew : new nCapacity = some p)
    (hroom : 3 + g.maxthreads.toNat < rlim_cur.toNat) :
    startUp new memory net g held rlim_cur =
      some (listenThreadBind { net with socket := ↑(3 + g.maxthreads.toNat) } g held) := by
  simp only [startUp, hcap, initTaskThread_of_pos hpos hnew hroom.le, Option.bind_eq_bind,
    Option.bind_some, Descriptors.acquire_first hroom]
  rfl

theorem sockfd_of_resume (hthreads : 0 < g.maxthreads)
    (h : startUp new memory net g held rlim_cur = some r) (hresume : .resume ∈ r.calls) :
    r.sockfd = if toInt rlim_cur.toNat < 3 * g.maxthreads + 4 then 3 else 3 + g.maxthreads := by
  obtain ⟨nCapacity, workers, d, held', hcap, hinit, hr⟩ := startUp_eq_some h
  have hpos : 0 < nCapacity ↔ 3 * g.maxthreads + 4 ≤ toInt rlim_cur.toNat :=
    workerCapacity_pos hthreads hcap
  split_ifs with hlimit
  · have hd := initTaskThread_of_nonpos (not_lt.mp (mt hpos.mp (not_le.mpr hlimit))) hinit
    subst hr hd
    have hsock := socket_of_resume hresume
    rw [listenThreadBind_sockfd]
    rcases lt_or_ge 3 rlim_cur.toNat with hroom | hfull
    · rw [Descriptors.acquire_first hroom]
      rfl
    · simp [Descriptors.acquire_first_of_le hfull] at hsock
  · have hcap' : 0 < nCapacity := hpos.mpr (not_lt.mp hlimit)
    have hle := toInt_le (Int.natCast_nonneg rlim_cur.toNat)
    have hroom : 3 + g.maxthreads.toNat < rlim_cur.toNat := by omega
    obtain ⟨p, hp⟩ := new_of_initTaskThread hcap' (by omega) (by omega) hinit
    have hr := Option.some.inj (h.symm.trans (startUp_of_pos hcap hcap' hp hroom))
    rw [hr, listenThreadBind_sockfd]
    simp only
    omega

end StartUp

/-- The socket that `Listen` puts into a descriptor set fits exactly if there are at most 1020
threads, or the limit leaves no capacity to give them descriptors. -/
theorem listen_descriptor_iff {files : Files} {content : List Byte} {g : SERVER}
    {new : ℤ → Option Block} {memory : ℕ → Address} {net : Net} {held : Bool}
    {rlim_cur : UInt64} {r : BindResult} (hg : Accepts files content g)
    (h : startUp new memory net g held rlim_cur = some r) (hresume : .resume ∈ r.calls) :
    (0 ≤ r.sockfd ∧ r.sockfd < FD_SETSIZE) ↔
      g.maxthreads ≤ 1020 ∨ toInt rlim_cur.toNat < 3 * g.maxthreads + 4 := by
  have hthreads : 0 < g.maxthreads := hg.inRange.maxthreads
  rw [sockfd_of_resume hthreads h hresume, FD_SETSIZE]
  split_ifs with hlimit
  · simp [hlimit]
  · simp only [hlimit, or_false]
    omega

theorem listen_descriptor_iff_default :
    let g := { initServerConfig with bindaddr := ascii "127.0.0.1" }
    let r := listenThreadBind { loopback with socket := 13 } g false
    (0 ≤ r.sockfd ∧ r.sockfd < FD_SETSIZE) ↔
      g.maxthreads ≤ 1020 ∨ toInt (1024 : UInt64).toNat < 3 * g.maxthreads + 4 :=
  have hload : Accepts (oneFile "bind 127.0.0.1\n") (ascii "bind 127.0.0.1\n")
      { initServerConfig with bindaddr := ascii "127.0.0.1" } := ⟨[], _, rfl, rfl, rfl⟩
  have hcap : GetWorkerCapacity { initServerConfig with bindaddr := ascii "127.0.0.1" } 1024 =
      some 50 := by decide
  have hstart : startUp smallSystem.new (fun _ => 77) loopback
      { initServerConfig with bindaddr := ascii "127.0.0.1" } false 1024 = some _ :=
    startUp_of_pos hcap (by decide) rfl (by decide)
  listen_descriptor_iff hload hstart (by decide)

/-- With 1021 threads and enough descriptors the socket has the number 1024. -/
theorem not_listen_descriptor :
    ¬∀ (files : Files) (content : List Byte) (g : SERVER) (new : ℤ → Option Block)
        (memory : ℕ → Address) (net : Net) (held : Bool) (rlim_cur : UInt64) (r : BindResult),
      Accepts files content g → startUp new memory net g held rlim_cur = some r →
      .resume ∈ r.calls → 0 ≤ r.sockfd ∧ r.sockfd < FD_SETSIZE := by
  intro h
  let g : SERVER := { initServerConfig with maxthreads := 1021, bindaddr := ascii "127.0.0.1" }
  have hload : Accepts (oneFile "maxthreads 1021\nbind 127.0.0.1\n")
      (ascii "maxthreads 1021\nbind 127.0.0.1\n") g := ⟨[], _, rfl, rfl, rfl⟩
  have hcap : GetWorkerCapacity g 65536 = some 31 := by decide
  have hstart : startUp smallSystem.new (fun _ => 77) loopback g false 65536 = _ :=
    startUp_of_pos hcap (by decide) rfl (by decide)
  have hfits := h _ _ g _ _ _ _ _ _ hload hstart (by decide)
  exact absurd hfits.2 (by decide)

end EpollThreads.Startup
