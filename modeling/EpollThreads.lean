import EpollThreads.Dispatch.ClientLimit
import EpollThreads.Dispatch.Delivery
import EpollThreads.Dispatch.PoolIndex
import EpollThreads.Dispatch.FailedWorkers
import EpollThreads.Dispatch.LoadBalance
import EpollThreads.Dispatch.Alternation
import EpollThreads.Events.Sending
import EpollThreads.Events.HandlerResults
import EpollThreads.Events.Interest
import EpollThreads.Listening.SelectTimeout
import EpollThreads.Listening.ListenerSteps
import EpollThreads.Connection.Wakeup
import EpollThreads.Connection.PingPong
import EpollThreads.Logging.LogMutex
import EpollThreads.Config.LastDirective
import EpollThreads.Config.Inert
import EpollThreads.Config.Numbers
import EpollThreads.Config.InBounds
import EpollThreads.Startup.Main
import EpollThreads.Startup.Bind
import EpollThreads.Startup.Capacity
import EpollThreads.Startup.ListenDescriptor
import EpollThreads.Startup.Handshake
import EpollThreads.Startup.SingleClose
import EpollThreads.Shutdown.Teardown
import EpollThreads.Shutdown.Destruction
import EpollThreads.Shutdown.SelfLock
import EpollThreads.Shutdown.Drain
import EpollThreads.Dispatch.DescriptorBudget
import EpollThreads.Connection.Stream
import EpollThreads.Connection.Work
import EpollThreads.Connection.Conversation
import EpollThreads.Connection.WholeServer
import EpollThreads.Foundations.Simulation
import EpollThreads.Foundations.AtomicObject
import EpollThreads.Atomic.ServerCounters
import EpollThreads.Atomic.Progress
import EpollThreads.Atomic.Snapshot
import EpollThreads.Config.Written
import EpollThreads.Config.Settable
import EpollThreads.Logging.WholeRecords
import EpollThreads.Startup.Daemonize
import EpollThreads.Foundations.Calls
import EpollThreads.Connection.LoggedLink
