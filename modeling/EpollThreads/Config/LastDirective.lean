import EpollThreads.Config.Directives

/-!
# The last directive wins

The settings a list of directives denotes: for each setting the argument of the
last directive that names it, and the default without one. The loader computes
these settings with one exception: `logfile stdout` does not undo an earlier
log file.
-/

namespace EpollThreads.Config

open Foundations Logging

def directives (content : List Byte) : List (List Byte × List Byte) :=
  (splitLines content).filterMap lineDirective

def Setting.name : Setting → List Byte
  | .daemonize => ascii "daemonize"
  | .pidfile => ascii "pidfile"
  | .port => ascii "port"
  | .bind => ascii "bind"
  | .timeout => ascii "timeout"
  | .loglevel => ascii "loglevel"
  | .logfile => ascii "logfile"
  | .maxclients => ascii "maxclients"
  | .maxthreads => ascii "maxthreads"

/-- The order of the ten comparisons is immaterial. -/
theorem settingOf_eq_some {name : List Byte} {k : Setting} :
    settingOf name = some k ↔ sameText name k.name = true := by
  constructor
  · intro h
    unfold settingOf at h
    split_ifs at h <;> obtain rfl := Option.some.inj h <;> assumption
  · intro h
    have hlower : name.map tolower = k.name.map tolower := eq_of_beq h
    have hcongr : settingOf name = settingOf k.name := by
      unfold settingOf sameText
      rw [hlower]
    rw [hcongr]
    cases k <;> decide

theorem sameText_name (name : List Byte) (k : Setting) :
    sameText name k.name = decide (settingOf name = some k) := by
  rw [Bool.eq_iff_iff, decide_eq_true_iff, settingOf_eq_some]

/-- The argument of the last directive that names `k`. -/
def lastValue (ds : List (List Byte × List Byte)) (k : Setting) : Option (List Byte) :=
  (ds.reverse.find? fun d => sameText d.1 k.name).map Prod.snd

/-- The settings that a list of directives denotes. -/
def denoted (ds : List (List Byte × List Byte)) : SERVER where
  shutdown := initServerConfig.shutdown
  pidfile := (lastValue ds .pidfile).getD initServerConfig.pidfile
  port := ((lastValue ds .port).map atoi).getD initServerConfig.port
  bindaddr := (lastValue ds .bind).getD initServerConfig.bindaddr
  verbosity := ((lastValue ds .loglevel).bind verbosityOf).getD initServerConfig.verbosity
  maxidletime := ((lastValue ds .timeout).map atoi).getD initServerConfig.maxidletime
  daemonize := ((lastValue ds .daemonize).map fun v =>
    if sameText v (ascii "yes") then 1 else 0).getD initServerConfig.daemonize
  logfile := ((lastValue ds .logfile).map fun v =>
    if isStdout v then [] else v).getD initServerConfig.logfile
  maxclients := ((lastValue ds .maxclients).map atoi).getD initServerConfig.maxclients
  maxthreads := ((lastValue ds .maxthreads).map atoi).getD initServerConfig.maxthreads

/-- The argument of the last `logfile` directive that names a file. -/
def lastPath (ds : List (List Byte × List Byte)) : Option (List Byte) :=
  (ds.reverse.find? fun d => sameText d.1 Setting.logfile.name && !isStdout d.2).map Prod.snd

section Appended

variable (ds : List (List Byte × List Byte)) (d : List Byte × List Byte)

theorem lastValue_append (k : Setting) :
    lastValue (ds ++ [d]) k = if settingOf d.1 = some k then some d.2 else lastValue ds k := by
  unfold lastValue
  rw [List.reverse_append, List.reverse_singleton, List.singleton_append, List.find?_cons,
    sameText_name]
  by_cases hk : settingOf d.1 = some k <;> simp [hk]

theorem lastPath_append :
    lastPath (ds ++ [d]) =
      if settingOf d.1 = some .logfile ∧ isStdout d.2 = false then some d.2 else lastPath ds := by
  unfold lastPath
  rw [List.reverse_append, List.reverse_singleton, List.singleton_append, List.find?_cons,
    sameText_name]
  by_cases hk : settingOf d.1 = some .logfile <;> cases hs : isStdout d.2 <;> simp [hk]

end Appended

theorem lastValue_append_list (ds ds' : List (List Byte × List Byte)) (k : Setting) :
    lastValue (ds ++ ds') k = (lastValue ds' k).or (lastValue ds k) := by
  simp [lastValue, List.find?_append, Option.map_or]

theorem lastValue_isSome {ds : List (List Byte × List Byte)} {d : List Byte × List Byte}
    {k : Setting} (hd : d ∈ ds) (hk : settingOf d.1 = some k) :
    ∃ v, lastValue ds k = some v := by
  rw [← Option.isSome_iff_exists]
  simp only [lastValue, Option.isSome_map, List.find?_isSome, List.mem_reverse]
  exact ⟨d, hd, settingOf_eq_some.mp hk⟩

/-- The settings the loader ends up with. -/
def loaded (ds : List (List Byte × List Byte)) : SERVER :=
  { denoted ds with logfile := (lastPath ds).getD initServerConfig.logfile }

theorem loaded_append (ds : List (List Byte × List Byte)) (d : List Byte × List Byte) :
    loaded (ds ++ [d]) = assign (loaded ds) d := by
  unfold loaded denoted assign
  simp only [lastValue_append, lastPath_append]
  cases hk : settingOf d.1 with
  | none => simp
  | some k =>
    cases k with
    | loglevel => cases hv : verbosityOf d.2 <;> simp [hv, initServerConfig]
    | logfile => cases hs : isStdout d.2 <;> simp
    | _ => simp

theorem foldl_assign (ds : List (List Byte × List Byte)) :
    ds.foldl assign initServerConfig = loaded ds := by
  induction ds using List.reverseRecOn with
  | nil => rfl
  | append_singleton ds d ih =>
    rw [List.foldl_append, ih, loaded_append]
    rfl

/-- The last `logfile` directive says `stdout`, and another one names a file. -/
def Masked (ds : List (List Byte × List Byte)) : Prop :=
  (∃ v, lastValue ds .logfile = some v ∧ isStdout v = true) ∧
    ∃ d ∈ ds, sameText d.1 Setting.logfile.name = true ∧ isStdout d.2 = false

theorem lastPath_isSome {ds : List (List Byte × List Byte)} :
    (lastPath ds).isSome = true ↔
      ∃ d ∈ ds, sameText d.1 Setting.logfile.name = true ∧ isStdout d.2 = false := by
  simp [lastPath, List.find?_isSome]

/-- The last path is the last argument, or `stdout` follows it. -/
theorem lastPath_eq (ds : List (List Byte × List Byte)) :
    (∃ v, lastValue ds .logfile = some v ∧ isStdout v = true) ∨
      lastPath ds = lastValue ds .logfile ∧
        ∀ v, lastValue ds .logfile = some v → isStdout v = false := by
  induction ds using List.reverseRecOn with
  | nil => exact Or.inr ⟨rfl, by simp [lastValue]⟩
  | append_singleton ds d ih =>
    rw [lastValue_append, lastPath_append]
    by_cases hk : settingOf d.1 = some .logfile
    · cases hs : isStdout d.2 with
      | true => exact Or.inl ⟨d.2, by simp [hk], hs⟩
      | false => exact Or.inr (by simp [hk, hs])
    · simpa [hk] using ih

theorem lastPath_ne_nil {ds : List (List Byte × List Byte)} (h : ∀ d ∈ ds, d.2 ≠ [])
    {path : List Byte} (hp : lastPath ds = some path) : path ≠ [] := by
  obtain ⟨d, hd, rfl⟩ := Option.map_eq_some_iff.mp hp
  exact h d (List.mem_reverse.mp (List.mem_of_find?_eq_some hd))

theorem loaded_eq_denoted_iff {ds : List (List Byte × List Byte)} (h : ∀ d ∈ ds, d.2 ≠ []) :
    loaded ds = denoted ds ↔ ¬Masked ds := by
  have hlog : loaded ds = denoted ds ↔
      (lastPath ds).getD initServerConfig.logfile = (denoted ds).logfile :=
    ⟨fun he => congrArg SERVER.logfile he, fun he => by rw [loaded, he]⟩
  rw [hlog, Masked, ← lastPath_isSome]
  rcases lastPath_eq ds with ⟨v, hv, hs⟩ | ⟨hp, hs⟩
  · have hempty : (denoted ds).logfile = [] := by simp [denoted, hv, hs]
    rw [hempty]
    cases hp : lastPath ds with
    | none => simp [initServerConfig]
    | some path => simp [hv, hs, lastPath_ne_nil h hp]
  · have hmask : ¬∃ v, lastValue ds .logfile = some v ∧ isStdout v = true := by
      rintro ⟨v, hv, hout⟩
      simp [hs v hv] at hout
    refine iff_of_true ?_ (fun hm => hmask hm.1)
    rw [hp]
    cases hv : lastValue ds .logfile with
    | none => simp [denoted, hv]
    | some v => simp [denoted, hv, hs v hv]

/-- `g_Server` is what the file denotes unless `stdout` was to undo a log file. -/
theorem last_directive_wins {files : Files} {content : List Byte} {g : SERVER}
    (hfit : ∀ line ∈ splitLines content, line.length ≤ 1023) (h : Accepts files content g) :
    g = denoted (directives content) ↔ ¬Masked (directives content) := by
  obtain ⟨hg, ha⟩ := h.directives
  rw [fgetsAll_eq_splitLines le_rfl hfit] at hg ha
  rw [hg, foldl_assign]
  exact loaded_eq_denoted_iff fun d hd => (ha d hd).1

theorem last_directive_wins_port :
    { initServerConfig with port := 81 } = denoted (directives (ascii "port 80\nPORT 81\n")) ↔
      ¬Masked (directives (ascii "port 80\nPORT 81\n")) :=
  have h : Accepts (oneFile "port 80\nPORT 81\n") (ascii "port 80\nPORT 81\n")
      { initServerConfig with port := 81 } := ⟨[], _, rfl, rfl, rfl⟩
  last_directive_wins (by decide) h

/-- `logfile stdout` leaves the earlier log file in place. -/
theorem not_last_directive_wins :
    ¬∀ (files : Files) (content : List Byte) (g : SERVER),
      (∀ line ∈ splitLines content, line.length ≤ 1023) → Accepts files content g →
        g = denoted (directives content) := by
  intro h
  have hlog := h (oneFile "logfile /tmp/x\nlogfile stdout\n")
    (ascii "logfile /tmp/x\nlogfile stdout\n")
    { initServerConfig with logfile := ascii "/tmp/x" } (by decide) ⟨[], _, rfl, rfl, rfl⟩
  exact absurd hlog (by decide)

end EpollThreads.Config
