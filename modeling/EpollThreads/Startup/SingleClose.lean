import EpollThreads.Client.SingleClose
import EpollThreads.Startup.ListenDescriptor
import EpollThreads.Startup.Main
import EpollThreads.Startup.SocketLife

/-!
# One close for a descriptor

`iSocket::Bind` closes the socket that it gives up and leaves its number in
`m_sockfd`, which `~ListenThread` closes. `iClose` and `~Test` do the same with
the socket of a client.
-/

namespace EpollThreads.Startup

open Foundations Logging Config Shutdown

/-- The descriptor that a call of `Bind` closes; -1 is none. -/
def Call.closing : Call → Option ℤ
  | .close fd => if fd = -1 then none else some fd
  | _ => none

/-- The descriptors that `Bind` closes where nothing ends it. -/
def closes (b : BindResult) : List ℤ := b.calls.filterMap Call.closing

/-- The descriptor that is closed, and whose it is. -/
def LifeAct.closing {T : Type*} : LifeAct T → Option (Owner × ℤ)
  | .bind c => c.closing.map (Owner.listenThread, ·)
  | .handler a => (Deletion.closing a).map Prod.snd

section Listening

variable {net : Net} {g : SERVER} {held : Bool}

end Listening

section Closing

variable {T : Type*} {tr : List (LifeAct T)}

variable [DecidableEq T] {n : ℕ} {net : Net} {g : SERVER} {held : Bool} {main : T}
  {m_epfd : ℕ → ℤ} {s : SocketLife T}

end Closing

end EpollThreads.Startup
