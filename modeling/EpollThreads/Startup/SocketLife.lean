import EpollThreads.Shutdown.Deletion
import EpollThreads.Startup.Bind

/-!
# The socket between `Bind` and `~ListenThread`

`iSocket::Bind` gets `m_sockfd` by reference: it writes the number there and closes
it from there. A signal may come at any time. On the thread of `main` it ends
`Bind`, since the handler does not return; on another thread the handler deletes the
`ListenThread` while `Bind` goes on, with whatever `m_sockfd` is by then.
-/

namespace EpollThreads.Startup

open Foundations Shutdown

/-- What the destructors of the server close. -/
def member (m_sockfd : ℤ) (m_epfd : ℕ → ℤ) : Owner → ℤ
  | .listenThread => m_sockfd
  | .taskThread i => m_epfd i

/-- The calls that `Bind` still makes, `m_sockfd`, and the runs of the handler. -/
structure SocketLife (T : Type*) where
  todo : List Call
  m_sockfd : ℤ
  deletion : Deletion T

inductive LifeAct (T : Type*)
  | bind (c : Call)
  | handler (a : DeleteAct T)
  deriving DecidableEq, Repr

namespace SocketLife

variable {T : Type*}

/-- The numbers that are closed come from the members. -/
def Reads (s : SocketLife T) (m_epfd : ℕ → ℤ) : DeleteAct T → Prop
  | .close _ o fd => fd = member s.m_sockfd m_epfd o
  | _ => True

instance (s : SocketLife T) (m_epfd : ℕ → ℤ) : (a : DeleteAct T) → Decidable (s.Reads m_epfd a)
  | .close _ o fd => inferInstanceAs (Decidable (fd = member s.m_sockfd m_epfd o))
  | .signal _ _ => inferInstanceAs (Decidable True)
  | .go _ => inferInstanceAs (Decidable True)

variable [DecidableEq T]

/-- `main` is the thread that runs `Bind`. -/
def step (net : Net) (main : T) (m_epfd : ℕ → ℤ) (s : SocketLife T) :
    LifeAct T → Option (SocketLife T)
  | .bind c =>
      if s.deletion.frames.on main = [] ∧ s.todo.head? = some c then
        some { s with
          todo := s.todo.tail
          m_sockfd := if c = .socket then net.socket else s.m_sockfd }
      else none
  | .handler a =>
      if s.Reads m_epfd a then (s.deletion.step a).map fun d => { s with deletion := d } else none

/-- With `n` workers, when `Bind` is called. -/
def initial (T : Type*) (n : ℕ) (calls : List Call) : SocketLife T := ⟨calls, -1, .initial n⟩

end SocketLife

namespace LifeAct

variable {T : Type*}

def call : LifeAct T → Option Call
  | .bind c => some c
  | .handler _ => none

def deletes : LifeAct T → Option (DeleteAct T)
  | .bind _ => none
  | .handler a => some a

end LifeAct

namespace SocketLife

variable {T : Type*} [DecidableEq T] {n : ℕ} {net : Net} {calls : List Call} {main : T}
  {m_epfd : ℕ → ℤ} {tr : List (LifeAct T)} {s : SocketLife T}

end SocketLife
end EpollThreads.Startup
