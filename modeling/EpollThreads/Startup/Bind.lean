import EpollThreads.Config.HeldMutex
import EpollThreads.Config.Range

/-!
# The listening socket

`iSocket::Bind` and `ListenThread::Bind` over the answers of the system. The
address of a file without `bind` directive is the empty string: `g_Server.bindaddr`
is an array, so the test for NULL in `iSocket::Bind` never finds one.
-/

namespace EpollThreads.Startup

open Foundations Logging Config

/-- `s_addr`, in network byte order. -/
abbrev InAddr := UInt32

def INADDR_ANY : InAddr := 0

/-- The answers of the system; `inet_aton` gives no address where it returns 0. -/
structure Net where
  inet_aton : List Byte → Option InAddr
  socket : ℤ
  bind : InAddr → UInt16 → ℤ
  listen : ℤ

inductive Call
  | socket
  | setsockopt (fd : ℤ)
  | bind (fd : ℤ) (addr : InAddr) (port : UInt16)
  | listen (fd backlog : ℤ)
  | close (fd : ℤ)
  | resume
  deriving DecidableEq, Repr

/-- The log mutex, `m_sockfd` and the calls so far. -/
structure Binding where
  held : Bool
  sockfd : ℤ
  calls : List Call
  deriving DecidableEq, Repr

inductive BindResult
  | returned (nRet : ℤ) (b : Binding)
  | blocked (b : Binding)
  deriving DecidableEq, Repr

namespace Binding

def call (b : Binding) (c : Call) : Binding := { b with calls := b.calls ++ [c] }

/-- A call of `myepollLog` with `MY_WARNING` and what follows it. -/
def warn (verbosity : ℤ) (b : Binding) (after : Binding → BindResult) : BindResult :=
  match myepollLog verbosity MY_WARNING b.held with
  | some held => after { b with held := held }
  | none => .blocked b

/-- The failures with an open socket: log, close, return -1. -/
def abandon (verbosity : ℤ) (b : Binding) : BindResult :=
  b.warn verbosity fun b => .returned (-1) (b.call (.close b.sockfd))

end Binding

/-- `bindaddr && inet_aton(bindaddr, &servaddr.sin_addr) == 0` -/
def requested (net : Net) : Option (List Byte) → Option InAddr
  | none => some INADDR_ANY
  | some bindaddr => net.inet_aton bindaddr

/-- `iSocket::Bind`; `bindaddr` is `none` for NULL. -/
def iSocketBind (net : Net) (verbosity : ℤ) (bindaddr : Option (List Byte)) (nPort : UInt16)
    (b : Binding) : BindResult :=
  let b := { b with sockfd := net.socket }.call .socket
  if net.socket = -1 then b.warn verbosity (.returned (-1))
  else
    let b := b.call (.setsockopt net.socket)
    match requested net bindaddr with
    | none => b.abandon verbosity
    | some addr =>
        let b := b.call (.bind net.socket addr nPort)
        if net.bind addr nPort = -1 then b.abandon verbosity
        else
          let b := b.call (.listen net.socket LISTEN_POOL_SZ)
          if net.listen = -1 then b.abandon verbosity else .returned 0 b

/-- `ListenThread::Bind`, called with the log mutex as the loader left it. -/
def listenThreadBind (net : Net) (g : SERVER) (held : Bool) : BindResult :=
  match iSocketBind net g.verbosity (some g.bindaddr) (.ofInt g.port) ⟨held, -1, []⟩ with
  | .blocked b => .blocked b
  | .returned nRet b =>
      if nRet = -1 then b.warn g.verbosity (.returned (-1)) else .returned 0 (b.call .resume)

namespace BindResult

def calls : BindResult → List Call
  | .returned _ b => b.calls
  | .blocked b => b.calls

/-- The addresses of the calls of `bind()`. -/
def binds (r : BindResult) : List InAddr :=
  r.calls.filterMap fun
    | .bind _ addr _ => some addr
    | _ => none

def Fails (r : BindResult) : Prop := ∃ b, r = .returned (-1) b

end BindResult

/-- The address a setting stands for is bound once there is a socket; an argument that is no
address is an error. -/
def Honours (net : Net) (bind : Option (List Byte)) (r : BindResult) : Prop :=
  match requested net bind with
  | some addr => net.socket ≠ -1 → r.binds = [addr]
  | none => r.Fails

section Address

variable {net : Net} {verbosity : ℤ} {b : Binding}

theorem Binding.warn_held {after : Binding → BindResult} (h : b.held = true) :
    b.warn verbosity after = .blocked b := by
  simp [warn, myepollLog, h]

theorem Binding.warn_free {after : Binding → BindResult} (h : b.held = false)
    (hv : verbosity ≤ MY_WARNING) : b.warn verbosity after = after b := by
  have hlevel : ¬levelBits MY_WARNING < verbosity := by
    rw [show levelBits MY_WARNING = MY_WARNING by decide]
    exact not_lt.mpr hv
  obtain ⟨held, sockfd, calls⟩ := b
  obtain rfl : held = false := h
  simp [warn, myepollLog, hlevel]

theorem iSocketBind_of_requested {addr : InAddr} {bindaddr : Option (List Byte)} (port : UInt16)
    (hsock : net.socket ≠ -1) (haddr : requested net bindaddr = some addr) (hb : b.calls = []) :
    (iSocketBind net verbosity bindaddr port b).binds = [addr] := by
  have habandon : ∀ b : Binding, (b.abandon verbosity).binds = (BindResult.returned 0 b).binds := by
    intro b
    unfold Binding.abandon Binding.warn
    cases myepollLog verbosity MY_WARNING b.held <;>
      simp [BindResult.binds, BindResult.calls, Binding.call]
  unfold iSocketBind
  simp only [if_neg hsock, haddr]
  split_ifs
  · rw [habandon]
    simp [BindResult.binds, BindResult.calls, Binding.call, hb]
  · rw [habandon]
    simp [BindResult.binds, BindResult.calls, Binding.call, hb]
  · simp [BindResult.binds, BindResult.calls, Binding.call, hb]

theorem listenThreadBind_binds {g : SERVER} {held : Bool} :
    (listenThreadBind net g held).binds =
      (iSocketBind net g.verbosity (some g.bindaddr) (.ofInt g.port) ⟨held, -1, []⟩).binds := by
  unfold listenThreadBind
  cases iSocketBind net g.verbosity (some g.bindaddr) (.ofInt g.port) ⟨held, -1, []⟩ with
  | blocked b => rfl
  | returned nRet b =>
    simp only
    split_ifs
    · unfold Binding.warn
      cases myepollLog g.verbosity MY_WARNING b.held <;> rfl
    · simp [BindResult.binds, BindResult.calls, Binding.call]

/-- A failure that is logged by `iSocket::Bind` is logged again by `ListenThread::Bind`, so it
is returned exactly if the log mutex is free. -/
theorem listenThreadBind_of_warn {g : SERVER} {held : Bool} {f : Binding → Binding}
    (hv : g.verbosity ≤ MY_WARNING)
    (hcall : iSocketBind net g.verbosity (some g.bindaddr) (.ofInt g.port) ⟨held, -1, []⟩ =
      b.warn g.verbosity fun b => .returned (-1) (f b))
    (hheld : b.held = held) (hfree : held = false → (f b).held = false) :
    (listenThreadBind net g held).Fails ↔ held = false := by
  unfold listenThreadBind
  rw [hcall]
  cases held with
  | true =>
    rw [Binding.warn_held hheld]
    simp [BindResult.Fails]
  | false =>
    rw [Binding.warn_free hheld hv]
    simp only [if_true]
    rw [Binding.warn_free (hfree rfl) hv]
    simp [BindResult.Fails]

theorem listenThreadBind_of_invalid {g : SERVER} (held : Bool) (hv : g.verbosity ≤ MY_WARNING)
    (hinvalid : net.socket = -1 ∨ net.inet_aton g.bindaddr = none) :
    (listenThreadBind net g held).binds = [] ∧
      ((listenThreadBind net g held).Fails ↔ held = false) := by
  rw [listenThreadBind_binds]
  by_cases hsock : net.socket = -1
  · have hcall : iSocketBind net g.verbosity (some g.bindaddr) (.ofInt g.port) ⟨held, -1, []⟩ =
        (⟨held, net.socket, [.socket]⟩ : Binding).warn g.verbosity (.returned (-1)) := by
      simp [iSocketBind, hsock, Binding.call]
    refine ⟨?_, listenThreadBind_of_warn (f := id) hv hcall rfl id⟩
    rw [hcall]
    cases held with
    | true => rw [Binding.warn_held rfl]; rfl
    | false => rw [Binding.warn_free rfl hv]; rfl
  · have hcall : iSocketBind net g.verbosity (some g.bindaddr) (.ofInt g.port) ⟨held, -1, []⟩ =
        (⟨held, net.socket, [.socket, .setsockopt net.socket]⟩ : Binding).warn g.verbosity
          fun b => .returned (-1) (b.call (.close b.sockfd)) := by
      simp [iSocketBind, hsock, requested, hinvalid.resolve_left hsock, Binding.call,
        Binding.abandon]
    refine ⟨?_, listenThreadBind_of_warn hv hcall rfl id⟩
    rw [hcall]
    cases held with
    | true => rw [Binding.warn_held rfl]; rfl
    | false => rw [Binding.warn_free rfl hv]; rfl

end Address

/-- The address of an accepted file is bound, or its failure reported, exactly if the file
has a `bind` directive, and names an address or leaves the log mutex free. Without the
directive only a missing socket hides the failure. -/
theorem honours_iff {files : Files} {path content : List Byte} {s : Loading} {net : Net}
    (hread : files.read path = some content)
    (h : loadServerConfig files (some path) initServerConfig = .returned 0 s)
    (hempty : net.inet_aton [] = none) :
    let ds := (buffers content).filterMap lineDirective
    Honours net (lastValue ds .bind) (listenThreadBind net s.g s.held) ↔
      (∃ v, lastValue ds .bind = some v ∧ ((net.inet_aton v).isSome ∨ ¬LostMutex ds)) ∨
        (lastValue ds .bind = none ∧ net.socket = -1) := by
  intro ds
  have hg : s.g = loaded ds := by
    rw [(Loading.run_next (run_of_returned hread h)).1, foldl_assign]
  have haddr : s.g.bindaddr = (lastValue ds .bind).getD [] := congrArg SERVER.bindaddr hg
  have hv : s.g.verbosity ≤ MY_WARNING :=
    (Accepts.inRange ⟨path, s, hread, h, rfl⟩).verbosity.2
  have hlost : s.held = false ↔ ¬LostMutex ds := by
    rw [← Bool.not_eq_true, held_iff_lostMutex hread h]
  cases hb : lastValue ds .bind with
  | none =>
    rw [hb] at haddr
    obtain ⟨hbinds, -⟩ := listenThreadBind_of_invalid s.held hv
      (.inr (haddr ▸ hempty : net.inet_aton s.g.bindaddr = none))
    simp [Honours, requested, hbinds]
  | some v =>
    rw [hb, Option.getD_some] at haddr
    cases ha : net.inet_aton v with
    | some addr =>
      have hbinds (hsock : net.socket ≠ -1) : (listenThreadBind net s.g s.held).binds = [addr] := by
        rw [listenThreadBind_binds]
        exact iSocketBind_of_requested _ hsock
          (haddr ▸ ha : requested net (some s.g.bindaddr) = some addr) rfl
      simpa [Honours, requested, ha] using hbinds
    | none =>
      obtain ⟨-, hfails⟩ := listenThreadBind_of_invalid s.held hv
        (.inr (haddr ▸ ha : net.inet_aton s.g.bindaddr = none))
      simpa [Honours, requested, ha, hlost] using hfails

/-- A system where only `127.0.0.1` is an address. -/
def loopback : Net where
  inet_aton s := if s = ascii "127.0.0.1" then some 16777343 else none
  socket := 5
  bind _ _ := 0
  listen := 0

theorem honours_loopback :
    let ds := (buffers (ascii "bind 127.0.0.1\n")).filterMap lineDirective
    Honours loopback (lastValue ds .bind) (listenThreadBind loopback
        { initServerConfig with bindaddr := ascii "127.0.0.1" } false) ↔
      (∃ v, lastValue ds .bind = some v ∧ ((loopback.inet_aton v).isSome ∨ ¬LostMutex ds)) ∨
        (lastValue ds .bind = none ∧ loopback.socket = -1) :=
  have hread : (oneFile "bind 127.0.0.1\n").read [] = some (ascii "bind 127.0.0.1\n") := rfl
  have hload : loadServerConfig (oneFile "bind 127.0.0.1\n") (some []) initServerConfig =
      .returned 0 ⟨{ initServerConfig with bindaddr := ascii "127.0.0.1" }, false, 1, []⟩ := rfl
  honours_iff hread hload rfl

/-- A file that leaves the address to the default makes the server fail. -/
theorem not_honours :
    ¬∀ (files : Files) (path content : List Byte) (s : Loading) (net : Net),
      files.read path = some content →
      loadServerConfig files (some path) initServerConfig = .returned 0 s →
      net.inet_aton [] = none →
        Honours net (lastValue ((buffers content).filterMap lineDirective) .bind)
          (listenThreadBind net s.g s.held) := by
  intro h
  have hhonours := h (oneFile "port 80\n") [] (ascii "port 80\n")
    ⟨{ initServerConfig with port := 80 }, false, 1, []⟩ loopback rfl rfl rfl
  have hbinds : (listenThreadBind loopback { initServerConfig with port := 80 } false).binds =
      [INADDR_ANY] := hhonours (by decide)
  exact absurd hbinds (by decide)

end EpollThreads.Startup
