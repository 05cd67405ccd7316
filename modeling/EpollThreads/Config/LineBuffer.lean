import EpollThreads.Config.Range
import EpollThreads.Foundations.ByteBlock

/-!
# The line loop on its buffer

`loadServerConfig` as it works on the bytes of `buffer`: index loops, a cut in
place and two pointers into the buffer. Every access is checked; the loop has no
result if one of them falls outside the buffer or a `strcpy` outside the array
it fills. Pointers are offsets into the buffer.
-/

namespace EpollThreads.Config

open Foundations Logging

/-- `for (i = 0; i < (int) strlen(s) - 1 && (s[i] == ' ' || s[i] == '\t'); i++);` -/
def skipBlanks (s : List Byte) : ℕ → ℕ → Option ℕ
  | 0, _ => none
  | fuel + 1, i => do
      let len ← strlen s
      if (i : ℤ) < (len : ℤ) - 1 then
        let b ← s[i]?
        if isBlank b then skipBlanks s fuel (i + 1) else some i
      else some i

/-- `for (; i >= 1 && (value[i-1] == ' ' || ... '\t' || ... '\n'); i--);` -/
def trimEnd (value : List Byte) : ℕ → Option ℕ
  | 0 => some 0
  | i + 1 => do
      let b ← value[i]?
      if isBlank b || b == newline then trimEnd value i else some (i + 1)

/-- What the loop makes of the buffer; `name` and `value` are pointers into it. -/
inductive Split
  | skipped
  | missing
  | directive (name value : ℕ)
  deriving DecidableEq, Repr

/-- From the first blank of the line on: `*value++ = 0`, the two loops, `value[i] = 0`. -/
def splitValue (buffer : List Byte) (buff blank : ℕ) : Option (Split × List Byte) := do
  let buffer ← storeByte buffer (buff + blank) 0
  let value := buff + blank + 1
  let i ← skipBlanks (buffer.drop value) buffer.length 0
  let value := value + i
  let len ← strlen (buffer.drop value)
  let i ← trimEnd (buffer.drop value) len
  if i = 0 then some (.missing, buffer)
  else
    let buffer ← storeByte buffer (value + i) 0
    some (.directive buff value, buffer)

/-- One pass of the loop up to the first `strcasecmp`. -/
def splitLine (buffer : List Byte) : Option (Split × List Byte) := do
  let buff ← skipBlanks buffer buffer.length 0
  let len ← strlen (buffer.drop buff)
  if len ≤ 2 then some (.skipped, buffer)
  else
    let b ← buffer[buff]?
    if b = 35 then some (.skipped, buffer)
    else
      match ← strpbrk isBlank (buffer.drop buff) with
      | none => some (.missing, buffer)
      | some blank => splitValue buffer buff blank

/-- The comparisons with `name`, in their order. -/
def settingNames : List (List Byte × Setting) :=
  [(ascii "daemonize", .daemonize), (ascii "pidfile", .pidfile), (ascii "port", .port),
    (ascii "bind", .bind), (ascii "timeout", .timeout), (ascii "loglevel", .loglevel),
    (ascii "logfile", .logfile), (ascii "maxclients", .maxclients),
    (ascii "maxthreads", .maxthreads)]

def levelNames : List (List Byte × ℤ) :=
  [(ascii "debug", MY_DEBUG), (ascii "verbose", MY_VERBOSE), (ascii "notice", MY_NOTICE),
    (ascii "warning", MY_WARNING)]

namespace Loading

/-- The ten branches on the strings behind the two pointers. -/
def applyBytes (canAppend : List Byte → Bool) (s : Loading) (name value : List Byte) :
    Option Outcome := do
  match ← firstMatch name settingNames with
  | some .daemonize =>
      match ← firstMatch value [(ascii "yes", 1), (ascii "no", 0)] with
      | some daemonize => some (.next { s with g := { s.g with daemonize := daemonize } })
      | none => some (s.say (.notYesOrNo s.line) .fail)
  | some .pidfile =>
      let pidfile ← strcpy MIN_BUFSZ value
      some (.next { s with g := { s.g with pidfile := pidfile } })
  | some .port =>
      let port ← readInt value
      some (s.number { s.g with port := port } (0 ≤ port && port ≤ 65535) (.invalidPort s.line))
  | some .bind =>
      let bindaddr ← strcpy MIN_BUFSZ value
      some (.next { s with g := { s.g with bindaddr := bindaddr } })
  | some .timeout =>
      let maxidletime ← readInt value
      some (s.number { s.g with maxidletime := maxidletime } (0 ≤ maxidletime)
        (.invalidTimeout s.line))
  | some .loglevel =>
      match ← firstMatch value levelNames with
      | some verbosity => some (.next { s with g := { s.g with verbosity := verbosity } })
      | none => some (s.say (.invalidLoglevel s.line) .fail)
  | some .logfile =>
      if ← equalText value (ascii "stdout") then some (.next s)
      else
        let logfile ← strcpy MIN_BUFSZ value
        if canAppend logfile then some (.next { s with g := { s.g with logfile := logfile } })
        else some ({ s with g := { s.g with logfile := logfile } }.say (.cantOpenLog logfile) .fail)
  | some .maxclients =>
      let maxclients ← readInt value
      some (s.number { s.g with maxclients := maxclients } (1 ≤ maxclients)
        (.invalidMaxclients s.line))
  | some .maxthreads =>
      let maxthreads ← readInt value
      some (s.number { s.g with maxthreads := maxthreads } (1 ≤ maxthreads)
        (.invalidMaxthreads s.line))
  | none => some (s.say (.invalidArgument s.line) .next)

/-- `fgets` fills the buffer with a piece of the file, and the loop body runs on it. -/
def stepBytes (canAppend : List Byte → Bool) (s : Loading) (buffer piece : List Byte) :
    Option (Outcome × List Byte) := do
  let buffer ← storeString buffer piece
  let (split, buffer) ← splitLine buffer
  match split with
  | .skipped => some (.next { s with line := s.line + 1 }, buffer)
  | .missing =>
      some ({ s with line := s.line + 1 }.say (.missingArgument (s.line + 1)) .fail, buffer)
  | .directive name value =>
      let o ← { s with line := s.line + 1 }.applyBytes canAppend (buffer.drop name)
        (buffer.drop value)
      some (o, buffer)

def runBytes (canAppend : List Byte → Bool) :
    Loading → List Byte → List (List Byte) → Option Outcome
  | s, _, [] => some (.next s)
  | s, buffer, piece :: pieces => do
      let (o, buffer) ← s.stepBytes canAppend buffer piece
      match o with
      | .next s => s.runBytes canAppend buffer pieces
      | o => some o

end Loading

/-- `loadServerConfig` with its buffer, which is `""` at first. -/
def loadServerConfigBytes (files : Files) (filename : Option (List Byte)) (g : SERVER) :
    Option LoadResult :=
  let s : Loading := ⟨g, false, 0, []⟩
  match filename with
  | none => some (s.say .nullFilename .fail).result
  | some path =>
      match files.read path with
      | none => some (s.say (.cantOpen path) .fail).result
      | some content =>
          (s.runBytes files.canAppend (List.replicate MY_CONFIGLINE_MAX 0)
            (fgetsAll MY_CONFIGLINE_MAX content.length content)).map Outcome.result

/-- What the pointers lead to. -/
def Split.Spells (buffer : List Byte) : Split → Line → Prop
  | .skipped, .skipped | .missing, .missing => True
  | .directive p q, .directive name value =>
      Holds (buffer.drop p) name ∧ Holds (buffer.drop q) value
  | _, _ => False

end EpollThreads.Config
