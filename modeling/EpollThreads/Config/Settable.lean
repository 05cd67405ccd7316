import EpollThreads.Config.Written

/-!
# The settings a file can leave behind

An accepted file leaves each number in the range of its directive, each text as
a line can carry it, and a log file that can be opened. Conversely each such
`g_Server` is the one that its own directives, written out, leave behind.
-/

namespace EpollThreads.Config

open Foundations Logging

/-- The text can be the argument of a directive for this setting. -/
def Sayable (k : Setting) (value : List Byte) : Prop := Text value ∧ FitsLine k.name value

structure SERVER.Settable (canAppend : List Byte → Bool) (g : SERVER) : Prop
    extends g.InRange where
  shutdown : g.shutdown = false
  maxidletime_le : g.maxidletime ≤ 2 ^ 31 - 1
  maxclients_le : g.maxclients ≤ 2 ^ 31 - 1
  maxthreads_le : g.maxthreads ≤ 2 ^ 31 - 1
  pidfile : Sayable .pidfile g.pidfile
  bindaddr : g.bindaddr = [] ∨ Sayable .bind g.bindaddr
  logfile : g.logfile = [] ∨
    Sayable .logfile g.logfile ∧ canAppend g.logfile = true ∧ isStdout g.logfile = false

section Reading

variable {canAppend : List Byte → Bool}

theorem settable_initServerConfig : initServerConfig.Settable canAppend where
  toInRange := inRange_initServerConfig
  shutdown := rfl
  maxidletime_le := by decide
  maxclients_le := by decide
  maxthreads_le := by decide
  pidfile := ⟨by decide, by unfold FitsLine; decide⟩
  bindaddr := Or.inl rfl
  logfile := Or.inl rfl

theorem length_of_settingOf {name : List Byte} {k : Setting} (h : settingOf name = some k) :
    name.length = k.name.length := by
  have hlower : name.map tolower = k.name.map tolower := eq_of_beq (settingOf_eq_some.mp h)
  simpa using congrArg List.length hlower

theorem WellFormed.sayable {d : List Byte × List Byte} {k : Setting} (h : WellFormed d)
    (hk : settingOf d.1 = some k) : Sayable k d.2 := by
  refine ⟨h.value, ?_⟩
  have hfits := h.fits
  rwa [FitsLine, length_of_settingOf hk] at hfits

theorem SERVER.Settable.assign {g : SERVER} {d : List Byte × List Byte}
    (hg : g.Settable canAppend) (hd : Admissible canAppend d) (hw : WellFormed d) :
    (Config.assign g d).Settable canAppend := by
  have hrange := hg.toInRange.assign hd
  have hsay := fun k => hw.sayable (k := k)
  obtain ⟨-, hd⟩ := hd
  revert hrange
  unfold Config.assign
  cases hk : settingOf d.1 with
  | none => exact fun _ => hg
  | some k =>
    rw [hk] at hd
    intro hrange
    cases k with
    | daemonize | port | loglevel => exact { hg with toInRange := hrange }
    | pidfile => exact { hg with pidfile := hsay _ hk }
    | bind => exact { hg with bindaddr := Or.inr (hsay _ hk) }
    | timeout => exact { hg with toInRange := hrange, maxidletime_le := atoi_le _ }
    | maxclients => exact { hg with toInRange := hrange, maxclients_le := atoi_le _ }
    | maxthreads => exact { hg with toInRange := hrange, maxthreads_le := atoi_le _ }
    | logfile =>
      cases hs : isStdout d.2 with
      | true => exact { hg with }
      | false =>
        rw [hs] at hd
        exact { hg with logfile := Or.inr ⟨hsay _ hk, by simpa using hd, hs⟩ }

theorem Accepts.settable {files : Files} {content : List Byte} {g : SERVER}
    (h : Accepts files content g) : g.Settable files.canAppend := by
  obtain ⟨rfl, ha⟩ := h.directives
  exact List.foldlRecOn _ _ settable_initServerConfig fun g hg d hd =>
    hg.assign (ha d hd) (wellFormed_of_mem hd (ha d hd).1)

end Reading

def levelName (verbosity : ℤ) : List Byte :=
  if verbosity = MY_DEBUG then ascii "debug"
  else if verbosity = MY_VERBOSE then ascii "verbose"
  else if verbosity = MY_NOTICE then ascii "notice"
  else ascii "warning"

/-- The directives that say these settings; an empty text has none. -/
def SERVER.directives (g : SERVER) : List (List Byte × List Byte) :=
  [(Setting.name .daemonize, if g.daemonize = 1 then ascii "yes" else ascii "no"),
    (Setting.name .pidfile, g.pidfile),
    (Setting.name .port, printed g.port.toNat),
    (Setting.name .timeout, printed g.maxidletime.toNat),
    (Setting.name .loglevel, levelName g.verbosity),
    (Setting.name .maxclients, printed g.maxclients.toNat),
    (Setting.name .maxthreads, printed g.maxthreads.toNat)] ++
  (if g.bindaddr = [] then [] else [(Setting.name .bind, g.bindaddr)]) ++
  (if g.logfile = [] then [] else [(Setting.name .logfile, g.logfile)])

section Writing

variable {canAppend : List Byte → Bool} {g : SERVER}

theorem settingOf_name (k : Setting) : settingOf k.name = some k := by cases k <;> decide

theorem name_setting (k : Setting) : Name k.name := by cases k <;> decide

theorem Sayable.wellFormed {k : Setting} {value : List Byte} (h : Sayable k value) :
    WellFormed (k.name, value) :=
  ⟨name_setting k, h.1, h.2⟩

theorem isTrailing_of_isdigit {b : Byte} (h : isdigit b = true) : isTrailing b = false := by
  apply Bool.eq_false_of_not_eq_true
  intro ht
  simp only [isTrailing, isBlank, Bool.or_eq_true, beq_iff_eq] at ht
  rcases ht with (rfl | rfl) | rfl <;> exact absurd h (by decide)

theorem text_of_isDigits {value : List Byte} (h : IsDigits value) : Text value := by
  obtain ⟨hne, hall⟩ := h
  have hdigit : ∀ b ∈ value, isdigit b = true := List.all_eq_true.mp hall
  refine ⟨hne, fun h => absurd (hdigit 0 h) (by decide),
    fun h => absurd (hdigit newline h) (by decide), fun b hb => ?_,
    fun b hb => isTrailing_of_isdigit (hdigit b (List.mem_of_mem_getLast? hb))⟩
  have htrail := isTrailing_of_isdigit (hdigit b (List.mem_of_mem_head? hb))
  exact (Bool.or_eq_false_iff.mp htrail).1

theorem sayable_printed (k : Setting) {n : ℤ} (h : n ≤ 2 ^ 31 - 1) :
    Sayable k (printed n.toNat) := by
  have hlen : (printed n.toNat).length ≤ 10 := length_printed_le (by decide) (by omega)
  have hname : k.name.length ≤ 10 := by cases k <;> decide
  exact ⟨text_of_isDigits (isDigits_printed _), by unfold FitsLine; omega⟩

theorem atoi_printed {n : ℤ} (h0 : 0 ≤ n) (h : n ≤ 2 ^ 31 - 1) : atoi (printed n.toNat) = n := by
  have hnum := numeralValue_printed n.toNat
  rw [Int.toNat_of_nonneg h0] at hnum
  exact atoi_of_admits (k := .timeout) hnum ⟨h0, h⟩

theorem verbosityOf_levelName {verbosity : ℤ} (h : MY_DEBUG ≤ verbosity)
    (h' : verbosity ≤ MY_WARNING) : verbosityOf (levelName verbosity) = some verbosity := by
  have hcases : verbosity = MY_DEBUG ∨ verbosity = MY_VERBOSE ∨ verbosity = MY_NOTICE ∨
      verbosity = MY_WARNING := by
    simp only [MY_DEBUG, MY_VERBOSE, MY_NOTICE, MY_WARNING] at h h' ⊢
    omega
  rcases hcases with rfl | rfl | rfl | rfl <;> decide

theorem sayable_of_word {k : Setting} {value : List Byte}
    (h : value ∈ ["yes", "no", "debug", "verbose", "notice", "warning"].map ascii) :
    Sayable k value := by
  have htext : Text value ∧ value.length ≤ 7 := by
    simp only [List.map_cons, List.map_nil, List.mem_cons, List.not_mem_nil, or_false] at h
    rcases h with rfl | rfl | rfl | rfl | rfl | rfl <;> exact ⟨by decide, by decide⟩
  have hname : k.name.length ≤ 10 := by cases k <;> decide
  exact ⟨htext.1, by unfold FitsLine; omega⟩

theorem SERVER.Settable.wellFormed (hg : g.Settable canAppend) :
    ∀ d ∈ g.directives, WellFormed d := by
  have hport : g.port ≤ 2 ^ 31 - 1 := hg.port.2.trans (by decide)
  have hyes : (if g.daemonize = 1 then ascii "yes" else ascii "no") ∈
      ["yes", "no", "debug", "verbose", "notice", "warning"].map ascii := by
    split_ifs <;> decide
  have hlevel : levelName g.verbosity ∈
      ["yes", "no", "debug", "verbose", "notice", "warning"].map ascii := by
    unfold levelName
    split_ifs <;> decide
  intro d hd
  simp only [SERVER.directives, List.mem_append, List.mem_cons, List.not_mem_nil, or_false] at hd
  rcases hd with ((rfl | rfl | rfl | rfl | rfl | rfl | rfl) | hd) | hd
  · exact (sayable_of_word hyes).wellFormed
  · exact hg.pidfile.wellFormed
  · exact (sayable_printed _ hport).wellFormed
  · exact (sayable_printed _ hg.maxidletime_le).wellFormed
  · exact (sayable_of_word hlevel).wellFormed
  · exact (sayable_printed _ hg.maxclients_le).wellFormed
  · exact (sayable_printed _ hg.maxthreads_le).wellFormed
  · split_ifs at hd with hnil
    · cases hd
    · obtain rfl := List.mem_singleton.mp hd
      exact (hg.bindaddr.resolve_left hnil).wellFormed
  · split_ifs at hd with hnil
    · cases hd
    · obtain rfl := List.mem_singleton.mp hd
      exact (hg.logfile.resolve_left hnil).1.wellFormed

theorem SERVER.Settable.atoi_eq (hg : g.Settable canAppend) :
    atoi (printed g.port.toNat) = g.port ∧ atoi (printed g.maxidletime.toNat) = g.maxidletime ∧
      atoi (printed g.maxclients.toNat) = g.maxclients ∧
      atoi (printed g.maxthreads.toNat) = g.maxthreads :=
  ⟨atoi_printed hg.port.1 (hg.port.2.trans (by decide)),
    atoi_printed hg.toInRange.maxidletime hg.maxidletime_le,
    atoi_printed (zero_le_one.trans hg.toInRange.maxclients) hg.maxclients_le,
    atoi_printed (zero_le_one.trans hg.toInRange.maxthreads) hg.maxthreads_le⟩

theorem SERVER.Settable.admissible (hg : g.Settable canAppend) :
    ∀ d ∈ g.directives, (settingOf d.1).isSome ∧ Admissible canAppend d := by
  obtain ⟨hport, htimeout, hclients, hthreads⟩ := hg.atoi_eq
  have hlevel := verbosityOf_levelName hg.verbosity.1 hg.verbosity.2
  intro d hd
  have hne := (hg.wellFormed d hd).value.ne_nil
  simp only [SERVER.directives, List.mem_append, List.mem_cons, List.not_mem_nil, or_false] at hd
  rcases hd with ((rfl | rfl | rfl | rfl | rfl | rfl | rfl) | hd) | hd
  · refine ⟨by simp [settingOf_name], hne, ?_⟩
    simp only [settingOf_name]
    split_ifs <;> decide
  · exact ⟨by simp [settingOf_name], hne, by simp [settingOf_name]⟩
  · exact ⟨by simp [settingOf_name], hne, by simpa [settingOf_name, hport] using hg.port⟩
  · exact ⟨by simp [settingOf_name], hne,
      by simpa [settingOf_name, htimeout] using hg.toInRange.maxidletime⟩
  · exact ⟨by simp [settingOf_name], hne, by simp [settingOf_name, hlevel]⟩
  · exact ⟨by simp [settingOf_name], hne,
      by simpa [settingOf_name, hclients] using hg.toInRange.maxclients⟩
  · exact ⟨by simp [settingOf_name], hne,
      by simpa [settingOf_name, hthreads] using hg.toInRange.maxthreads⟩
  · split_ifs at hd with hnil
    · cases hd
    · obtain rfl := List.mem_singleton.mp hd
      exact ⟨by simp [settingOf_name], hne, by simp [settingOf_name]⟩
  · split_ifs at hd with hnil
    · cases hd
    · obtain rfl := List.mem_singleton.mp hd
      have happend := (hg.logfile.resolve_left hnil).2.1
      exact ⟨by simp [settingOf_name], hne, by simp [settingOf_name, happend]⟩

theorem foldl_bind (value : List Byte) {g₀ : SERVER} (h : g₀.bindaddr = []) :
    (if value = [] then [] else [(Setting.name .bind, value)]).foldl Config.assign g₀ =
      { g₀ with bindaddr := value } := by
  split_ifs with hv
  · rw [hv, ← h]
    rfl
  · simp only [List.foldl_cons, List.foldl_nil, Config.assign, settingOf_name]

theorem foldl_logfile {value : List Byte} (hout : value = [] ∨ isStdout value = false)
    {g₀ : SERVER} (h : g₀.logfile = []) :
    (if value = [] then [] else [(Setting.name .logfile, value)]).foldl Config.assign g₀ =
      { g₀ with logfile := value } := by
  split_ifs with hv
  · rw [hv, ← h]
    rfl
  · simp [Config.assign, settingOf_name, hout.resolve_left hv]

/-- No directive says an empty text; those of `initServerConfig` are empty where it matters. -/
theorem SERVER.Settable.foldl_directives (hg : g.Settable canAppend) :
    g.directives.foldl Config.assign initServerConfig = g := by
  obtain ⟨hport, htimeout, hclients, hthreads⟩ := hg.atoi_eq
  have hlevel := verbosityOf_levelName hg.verbosity.1 hg.verbosity.2
  have hyes : (if sameText (if g.daemonize = 1 then ascii "yes" else ascii "no") (ascii "yes")
      then 1 else 0) = g.daemonize := by
    rcases hg.daemonize with h | h <;> rw [h] <;> decide
  have hout : g.logfile = [] ∨ isStdout g.logfile = false := hg.logfile.imp_right fun h => h.2.2
  rw [SERVER.directives, List.foldl_append, List.foldl_append]
  simp only [List.foldl_cons, List.foldl_nil, Config.assign, settingOf_name, hport, htimeout,
    hclients, hthreads, hlevel, hyes, Option.getD_some]
  rw [foldl_bind _ rfl, foldl_logfile hout rfl]
  change SERVER.mk false _ _ _ _ _ _ _ _ _ = g
  rw [← hg.shutdown]

end Writing

namespace Loading

variable {canAppend : List Byte → Bool}

theorem apply_goes_on (s : Loading) {name value : List Byte} (hk : (settingOf name).isSome)
    (h : Admissible canAppend (name, value)) : ∃ s', s.apply canAppend name value = .next s' := by
  obtain ⟨k, hk⟩ := Option.isSome_iff_exists.mp hk
  obtain ⟨-, h⟩ := h
  simp only [hk] at h
  unfold apply
  simp only [hk]
  cases k with
  | pidfile | bind => exact ⟨_, rfl⟩
  | daemonize =>
    simp only at h ⊢
    split_ifs with hy hn
    · exact ⟨_, rfl⟩
    · exact ⟨_, rfl⟩
    · exact absurd h (by simp [hy, hn])
  | port | timeout | maxclients | maxthreads =>
    rw [number_goes_on]
    simpa using h
  | loglevel =>
    obtain ⟨verbosity, hv⟩ := Option.isSome_iff_exists.mp h
    simp only [hv]
    exact ⟨_, rfl⟩
  | logfile =>
    simp only [isStdout] at h ⊢
    split_ifs with hs hc
    · exact ⟨_, rfl⟩
    · exact ⟨_, rfl⟩
    · exact absurd h (by simp [hs, hc])

/-- The loader reads over lines that say a known setting with an admissible argument. -/
theorem run_goes_on {buffers : List (List Byte)}
    (h : ∀ d ∈ buffers.filterMap lineDirective,
      (settingOf d.1).isSome ∧ Admissible canAppend d) (s : Loading) :
    ∃ s', s.run canAppend buffers = .next s' := by
  induction buffers generalizing s with
  | nil => exact ⟨s, rfl⟩
  | cons buffer buffers ih =>
    rw [List.filterMap_cons] at h
    obtain ⟨s', hs'⟩ : ∃ s', s.step canAppend buffer = .next s' := by
      rw [step, parseLine_eq]
      cases hd : lineDirective buffer with
      | none => exact ⟨_, rfl⟩
      | some d =>
        rw [hd] at h
        obtain ⟨hk, hadm⟩ := h d List.mem_cons_self
        simp only [if_neg hadm.1]
        exact apply_goes_on _ hk hadm
    have hrest := ih (fun d hd => h d (by
      cases lineDirective buffer with
      | none => exact hd
      | some e => exact List.mem_cons_of_mem _ hd)) s'
    simpa only [run, hs'] using hrest

end Loading

/-- The file that says them leaves the settings behind. -/
theorem SERVER.Settable.accepts {files : Files} {g : SERVER} (hg : g.Settable files.canAppend)
    (path : List Byte) (hpath : files.read path = some (written g.directives)) :
    Accepts files (written g.directives) g := by
  have hread : (buffers (written g.directives)).filterMap lineDirective = g.directives :=
    filterMap_written hg.wellFormed
  obtain ⟨s, hs⟩ := Loading.run_goes_on (by rw [hread]; exact hg.admissible)
    ⟨initServerConfig, false, 0, []⟩
  refine ⟨path, s, hpath, ?_, ?_⟩
  · rw [load_eq hpath, hs]
    rfl
  · rw [(Loading.run_next hs).1, hread, hg.foldl_directives]

/-- The values of `g_Server` that accepted files leave behind; each is read back from the file
that says its directives. -/
theorem settable_iff (canAppend : List Byte → Bool) (g : SERVER) :
    ((∃ files content, files.canAppend = canAppend ∧ Accepts files content g) ↔
      g.Settable canAppend) ∧
    (g.Settable canAppend → ∀ (files : Files) path, files.canAppend = canAppend →
      files.read path = some (written g.directives) → Accepts files (written g.directives) g) := by
  refine ⟨⟨?_, fun hg => ?_⟩, ?_⟩
  · rintro ⟨files, content, rfl, h⟩
    exact h.settable
  · exact ⟨⟨fun _ => some (written g.directives), canAppend⟩, written g.directives, rfl,
      hg.accepts [] rfl⟩
  · rintro hg files path rfl hpath
    exact hg.accepts path hpath

theorem settable_iff_loopback :
    let g := { initServerConfig with bindaddr := ascii "127.0.0.1" }
    Accepts ⟨fun _ => some (written g.directives), fun _ => true⟩ (written g.directives) g := by
  intro g
  have haccepts : Accepts (oneFile "bind 127.0.0.1\n") (ascii "bind 127.0.0.1\n") g :=
    ⟨[], _, rfl, rfl, rfl⟩
  have hiff := settable_iff (fun _ => true) g
  exact hiff.2 (hiff.1.mp ⟨_, _, rfl, haccepts⟩) _ [] rfl rfl

end EpollThreads.Config
