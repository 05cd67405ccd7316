import EpollThreads.Foundations.CString
import EpollThreads.Logging.LogMutex

/-!
# The configuration loader

`loadServerConfig` as `main` runs it, before any other thread exists. A file is
the sequence of buffers that `fgets` delivers, and does not change while it is
read. Each buffer is a C string; what follows a NUL byte in it is not looked at.
The loader logs through `myepollLog` and may block there.
-/

namespace EpollThreads.Config

open Foundations Logging

/-- `g_Server`; a character array is the string it holds. -/
structure SERVER where
  shutdown : Bool
  pidfile : List Byte
  port : ℤ
  bindaddr : List Byte
  verbosity : ℤ
  maxidletime : ℤ
  daemonize : ℤ
  logfile : List Byte
  maxclients : ℤ
  maxthreads : ℤ
  deriving DecidableEq, Repr

def initServerConfig : SERVER where
  shutdown := false
  pidfile := ascii "/var/run/myepoll.pid"
  port := LISTEN_PORT
  bindaddr := []
  verbosity := MY_DEBUG
  maxidletime := MY_MAXIDLETIME
  daemonize := 0
  logfile := []
  maxclients := MY_MAX_CLIENTS
  maxthreads := THREAD_POOL_SZ

/-- What the loader logs. -/
inductive Message
  | nullFilename
  | cantOpen (filename : List Byte)
  | missingArgument (line : ℕ)
  | notYesOrNo (line : ℕ)
  | invalidPort (line : ℕ)
  | invalidTimeout (line : ℕ)
  | invalidLoglevel (line : ℕ)
  | cantOpenLog (logfile : List Byte)
  | invalidMaxclients (line : ℕ)
  | invalidMaxthreads (line : ℕ)
  | invalidArgument (line : ℕ)
  deriving DecidableEq, Repr

namespace Message

def level : Message → ℤ
  | .invalidArgument _ => MY_NOTICE
  | _ => MY_WARNING

def atLine (text : String) (line : ℕ) : List Byte :=
  ascii text ++ ascii " at line " ++ ascii (toString line)

def text : Message → List Byte
  | .nullFilename => ascii "Fatal error, config file '(null)' is NULL"
  | .cantOpen filename => ascii "Can't open config file '" ++ filename ++ ascii "'"
  | .missingArgument line => atLine "Missing argument for option" line
  | .notYesOrNo line => atLine "Argument must be 'yes' or 'no'" line
  | .invalidPort line => atLine "Invalid port" line
  | .invalidTimeout line => atLine "Invalid timeout value" line
  | .invalidLoglevel line => atLine "Argument must be debug, notice or warning" line
  | .cantOpenLog logfile => ascii "Can't open the log file '" ++ logfile ++ ascii "'"
  | .invalidMaxclients line => atLine "Invalid max clients limit" line
  | .invalidMaxthreads line => atLine "Invalid max threads limit" line
  | .invalidArgument line => atLine "Invalid argument" line

end Message

/-- What a buffer turns out to be. -/
inductive Line
  | skipped
  | missing
  | directive (name value : List Byte)
  deriving DecidableEq, Repr

/-- `for (i = 0; i < (int) strlen(s) - 1 && (s[i] == ' ' || s[i] == '\t'); i++);` -/
def leadingBlanks : List Byte → ℕ
  | b :: c :: s => if isBlank b then leadingBlanks (c :: s) + 1 else 0
  | _ => 0

/-- `for (i = strlen(value); i >= 1 && (value[i-1] == ' ' || ... '\t' || ... '\n'); i--);` -/
def trimmedLength (value : List Byte) : ℕ → ℕ
  | 0 => 0
  | i + 1 =>
      if isBlank (value.getD i 0) || value.getD i 0 == newline then trimmedLength value i
      else i + 1

/-- The text after the name, cut on both sides. -/
def argument (name rest : List Byte) : Line :=
  let value := rest.drop (leadingBlanks rest)
  let i := trimmedLength value value.length
  if i = 0 then .missing else .directive name (value.take i)

/-- The tests on `buff` without its indentation, and the cut into name and value. -/
def parseBuff (buff : List Byte) : Line :=
  if buff.length ≤ 2 ∨ buff.head? = some 35 then .skipped
  else match buff.findIdx? isBlank with
    | none => .missing
    | some i => argument (buff.take i) (buff.drop (i + 1))

/-- One pass of the loop up to the first comparison with a setting's name. -/
def parseLine (buffer : List Byte) : Line :=
  parseBuff ((cstr buffer).drop (leadingBlanks (cstr buffer)))

inductive Setting
  | daemonize
  | pidfile
  | port
  | bind
  | timeout
  | loglevel
  | logfile
  | maxclients
  | maxthreads
  deriving DecidableEq, Repr

/-- The branch that a name selects. -/
def settingOf (name : List Byte) : Option Setting :=
  if sameText name (ascii "daemonize") then some .daemonize
  else if sameText name (ascii "pidfile") then some .pidfile
  else if sameText name (ascii "port") then some .port
  else if sameText name (ascii "bind") then some .bind
  else if sameText name (ascii "timeout") then some .timeout
  else if sameText name (ascii "loglevel") then some .loglevel
  else if sameText name (ascii "logfile") then some .logfile
  else if sameText name (ascii "maxclients") then some .maxclients
  else if sameText name (ascii "maxthreads") then some .maxthreads
  else none

/-- The verbosity a `loglevel` argument stands for. -/
def verbosityOf (value : List Byte) : Option ℤ :=
  if sameText value (ascii "debug") then some MY_DEBUG
  else if sameText value (ascii "verbose") then some MY_VERBOSE
  else if sameText value (ascii "notice") then some MY_NOTICE
  else if sameText value (ascii "warning") then some MY_WARNING
  else none

/-- `g_Server`, the log mutex, the line count and what was logged. -/
structure Loading where
  g : SERVER
  held : Bool
  line : ℕ
  log : List Message
  deriving DecidableEq, Repr

inductive Outcome
  | next (s : Loading)
  | fail (s : Loading)
  | blocked (s : Loading)
  deriving DecidableEq, Repr

namespace Loading

/-- A call of `myepollLog` and what follows it. -/
def say (s : Loading) (m : Message) (after : Loading → Outcome) : Outcome :=
  match myepollLog s.g.verbosity m.level s.held with
  | some held => after { s with held := held, log := s.log ++ [m] }
  | none => .blocked s

/-- The number branches store first and check then. -/
def number (s : Loading) (g : SERVER) (admitted : Bool) (m : Message) : Outcome :=
  if admitted then .next { s with g := g } else { s with g := g }.say m .fail

/-- The ten branches; `canAppend` says which log files `fopen` can open. -/
def apply (canAppend : List Byte → Bool) (s : Loading) (name value : List Byte) : Outcome :=
  match settingOf name with
  | some .daemonize =>
      if sameText value (ascii "yes") then .next { s with g := { s.g with daemonize := 1 } }
      else if sameText value (ascii "no") then .next { s with g := { s.g with daemonize := 0 } }
      else s.say (.notYesOrNo s.line) .fail
  | some .pidfile => .next { s with g := { s.g with pidfile := value } }
  | some .port =>
      s.number { s.g with port := atoi value } (0 ≤ atoi value && atoi value ≤ 65535)
        (.invalidPort s.line)
  | some .bind => .next { s with g := { s.g with bindaddr := value } }
  | some .timeout =>
      s.number { s.g with maxidletime := atoi value } (0 ≤ atoi value) (.invalidTimeout s.line)
  | some .loglevel =>
      match verbosityOf value with
      | some verbosity => .next { s with g := { s.g with verbosity := verbosity } }
      | none => s.say (.invalidLoglevel s.line) .fail
  | some .logfile =>
      if sameText value (ascii "stdout") then .next s
      else if canAppend value then .next { s with g := { s.g with logfile := value } }
      else { s with g := { s.g with logfile := value } }.say (.cantOpenLog value) .fail
  | some .maxclients =>
      s.number { s.g with maxclients := atoi value } (1 ≤ atoi value) (.invalidMaxclients s.line)
  | some .maxthreads =>
      s.number { s.g with maxthreads := atoi value } (1 ≤ atoi value) (.invalidMaxthreads s.line)
  | none => s.say (.invalidArgument s.line) .next

/-- The body of the `while` loop; `line++` stands before the tests. -/
def step (canAppend : List Byte → Bool) (s : Loading) (buffer : List Byte) : Outcome :=
  match parseLine buffer with
  | .skipped => .next { s with line := s.line + 1 }
  | .missing => { s with line := s.line + 1 }.say (.missingArgument (s.line + 1)) .fail
  | .directive name value => { s with line := s.line + 1 }.apply canAppend name value

def run (canAppend : List Byte → Bool) : Loading → List (List Byte) → Outcome
  | s, [] => .next s
  | s, buffer :: buffers =>
      match s.step canAppend buffer with
      | .next s => s.run canAppend buffers
      | o => o

end Loading

/-- What `fopen` finds: the content of readable files, and which paths it can append to. -/
structure Files where
  read : List Byte → Option (List Byte)
  canAppend : List Byte → Bool

inductive LoadResult
  | returned (nRet : ℤ) (s : Loading)
  | blocked (s : Loading)
  deriving DecidableEq, Repr

def Outcome.result : Outcome → LoadResult
  | .next s => .returned 0 s
  | .fail s => .returned (-1) s
  | .blocked s => .blocked s

def loadServerConfig (files : Files) (filename : Option (List Byte)) (g : SERVER) : LoadResult :=
  let s : Loading := ⟨g, false, 0, []⟩
  match filename with
  | none => (s.say .nullFilename .fail).result
  | some path =>
      match files.read path with
      | none => (s.say (.cantOpen path) .fail).result
      | some content =>
          (s.run files.canAppend (fgetsAll MY_CONFIGLINE_MAX content.length content)).result

/-- Run after `initServerConfig` on a file with this content, it returns 0. -/
def Accepts (files : Files) (content : List Byte) (g : SERVER) : Prop :=
  ∃ path s, files.read path = some content ∧
    loadServerConfig files (some path) initServerConfig = .returned 0 s ∧ s.g = g

/-- The files of a system with one readable file, where every log file can be opened. -/
def oneFile (content : String) : Files where
  read _ := some (ascii content)
  canAppend _ := true

example : ∃ s, loadServerConfig (oneFile "port  80 \n# x\nLOGLEVEL warning\n") (some [])
    initServerConfig = .returned 0 s ∧ s.g.port = 80 ∧ s.g.verbosity = MY_WARNING :=
  ⟨_, rfl, by decide, by decide⟩

end EpollThreads.Config
