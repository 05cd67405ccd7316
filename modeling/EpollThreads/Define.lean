import Mathlib.Data.Int.Notation
import Mathlib.Data.Nat.Notation

/-!
# Constants

The log levels, the sizes and the defaults of `Define.h`, which the server and
the test client share.
-/

namespace EpollThreads

def MY_DEBUG : ℤ := 0
def MY_VERBOSE : ℤ := 1
def MY_NOTICE : ℤ := 2
def MY_WARNING : ℤ := 3
def MY_LOG_RAW : ℤ := 1024

def MIN_BUFSZ : ℕ := 1024
def MY_MAX_LOGMSG_LEN : ℕ := 4096
def MY_CONFIGLINE_MAX : ℕ := 1024

def THREAD_POOL_SZ : ℤ := 10
def LISTEN_PORT : ℤ := 8090
def LISTEN_POOL_SZ : ℤ := 1024
def MY_MAXIDLETIME : ℤ := 0
def MY_MAX_CLIENTS : ℤ := 10000

end EpollThreads
