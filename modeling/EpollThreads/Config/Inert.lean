import EpollThreads.Config.HeldMutex

/-!
# Comments and blank lines

What the deletion of a line changes. The loader looks at the buffers that
`fgets` fills, not at lines: a comment that does not fit into one buffer is cut,
and only its first piece begins with `#`.
-/

namespace EpollThreads.Config

open Foundations Logging

/-- A newline ends the line; in front of it are blanks only, or `#` follows the blanks. -/
def Idle (line : List Byte) : Prop :=
  ∃ text, newline ∉ text ∧ line = text ++ [newline] ∧
    (text.all isBlank = true ∨ (text.dropWhile isBlank).head? = some 35)

/-- The return value, if there is one, and `g_Server`. -/
def LoadResult.observed : LoadResult → Option ℤ × SERVER
  | .returned nRet s => (some nRet, s.g)
  | .blocked s => (none, s.g)

/-- Wherever the line stands in a file, a load of the file without it gives the same. -/
def Deletable (line : List Byte) : Prop :=
  ∀ (files files' : Files) (path before after : List Byte), WholeLines before →
    files.read path = some (before ++ line ++ after) →
    files'.read path = some (before ++ after) → files'.canAppend = files.canAppend →
      (loadServerConfig files' (some path) initServerConfig).observed =
        (loadServerConfig files (some path) initServerConfig).observed

/-- A buffer that is skipped, or that says `logfile stdout`. -/
def Passed (buffer : List Byte) : Prop :=
  ∀ d ∈ lineDirective buffer, settingOf d.1 = some .logfile ∧ isStdout d.2 = true

instance (buffer : List Byte) : Decidable (Passed buffer) :=
  inferInstanceAs (Decidable (∀ d ∈ lineDirective buffer, _))

section Erase

/-- Without the line count and the log, which decide nothing. -/
def Loading.erase (s : Loading) : Loading := { s with line := 0, log := [] }

def Outcome.erase : Outcome → Outcome
  | .next s => .next s.erase
  | .fail s => .fail s.erase
  | .blocked s => .blocked s.erase

def Outcome.andThen (o : Outcome) (f : Loading → Outcome) : Outcome :=
  match o with
  | .next s => f s
  | o => o

theorem Outcome.observed_of_erase {o o' : Outcome} (h : o.erase = o'.erase) :
    o.result.observed = o'.result.observed := by
  have herase : ∀ o : Outcome, o.erase.result.observed = o.result.observed := by
    rintro (s | s | s) <;> rfl
  rw [← herase o, h, herase o']

namespace Loading

variable {canAppend : List Byte → Bool} {s s' : Loading}

theorem erase_eq_iff : s.erase = s'.erase ↔ s.g = s'.g ∧ s.held = s'.held := by
  simp [erase]

theorem andThen_erase {o o' : Outcome} {f f' : Loading → Outcome} (h : o.erase = o'.erase)
    (hf : ∀ {s s' : Loading}, s.erase = s'.erase → (f s).erase = (f' s').erase) :
    (o.andThen f).erase = (o'.andThen f').erase := by
  cases o with
  | next s =>
    cases o' with
    | next s' => exact hf (Outcome.next.inj h)
    | fail s' | blocked s' => cases h
  | fail s | blocked s => cases o' <;> first | exact h | cases h

theorem say_erase {m m' : Message} {after : Loading → Outcome} (h : s.erase = s'.erase)
    (hm : m.level = m'.level) (hafter : after = .next ∨ after = .fail) :
    (s.say m after).erase = (s'.say m' after).erase := by
  obtain ⟨hg, hheld⟩ := erase_eq_iff.mp h
  unfold say
  rw [hg, hheld, hm]
  cases myepollLog s'.g.verbosity m'.level s'.held with
  | none => exact congrArg Outcome.blocked h
  | some held => rcases hafter with rfl | rfl <;> simp [Outcome.erase, erase]

theorem number_erase {g : SERVER} {admitted : Bool} {m m' : Message} (h : s.erase = s'.erase)
    (hm : m.level = m'.level) :
    (s.number g admitted m).erase = (s'.number g admitted m').erase := by
  obtain ⟨hg, hheld⟩ := erase_eq_iff.mp h
  have hstored : ({ s with g := g } : Loading).erase = ({ s' with g := g } : Loading).erase :=
    erase_eq_iff.mpr ⟨rfl, hheld⟩
  unfold number
  split_ifs
  · exact congrArg Outcome.next hstored
  · exact say_erase hstored hm (Or.inr rfl)

theorem apply_erase {name value : List Byte} (h : s.erase = s'.erase) :
    (s.apply canAppend name value).erase = (s'.apply canAppend name value).erase := by
  obtain ⟨hg, hheld⟩ := erase_eq_iff.mp h
  have hnext : ∀ g : SERVER, (Outcome.next { s with g := g }).erase =
      (Outcome.next { s' with g := g }).erase := fun g =>
    congrArg Outcome.next (erase_eq_iff.mpr ⟨rfl, hheld⟩)
  unfold apply
  cases settingOf name with
  | none => exact say_erase h rfl (Or.inl rfl)
  | some k =>
    cases k with
    | daemonize =>
      simp only [hg]
      split_ifs
      · exact hnext _
      · exact hnext _
      · exact say_erase h rfl (Or.inr rfl)
    | pidfile | bind => simp only [hg]; exact hnext _
    | port | timeout | maxclients | maxthreads => simp only [hg]; exact number_erase h rfl
    | loglevel =>
      cases verbosityOf value with
      | some verbosity => simp only [hg]; exact hnext _
      | none => exact say_erase h rfl (Or.inr rfl)
    | logfile =>
      simp only [hg]
      split_ifs
      · exact congrArg Outcome.next h
      · exact hnext _
      · exact say_erase (erase_eq_iff.mpr ⟨rfl, hheld⟩) rfl (Or.inr rfl)

theorem step_erase {buffer : List Byte} (h : s.erase = s'.erase) :
    (s.step canAppend buffer).erase = (s'.step canAppend buffer).erase := by
  have hline : ({ s with line := s.line + 1 } : Loading).erase =
      ({ s' with line := s'.line + 1 } : Loading).erase := h
  unfold step
  cases parseLine buffer with
  | skipped => exact congrArg Outcome.next hline
  | missing => exact say_erase hline rfl (Or.inr rfl)
  | directive name value => exact apply_erase hline

theorem run_cons (buffer : List Byte) (buffers : List (List Byte)) :
    s.run canAppend (buffer :: buffers) =
      (s.step canAppend buffer).andThen fun s => s.run canAppend buffers := by
  rw [run]
  cases s.step canAppend buffer <;> rfl

theorem run_append (buffers buffers' : List (List Byte)) :
    s.run canAppend (buffers ++ buffers') =
      (s.run canAppend buffers).andThen fun s => s.run canAppend buffers' := by
  induction buffers generalizing s with
  | nil => rfl
  | cons buffer buffers ih =>
    rw [List.cons_append, run_cons, run_cons]
    cases s.step canAppend buffer with
    | next s => exact ih
    | fail s | blocked s => rfl

theorem run_erase {buffers : List (List Byte)} (h : s.erase = s'.erase) :
    (s.run canAppend buffers).erase = (s'.run canAppend buffers).erase := by
  induction buffers generalizing s s' with
  | nil => exact congrArg Outcome.next h
  | cons buffer buffers ih =>
    rw [run_cons, run_cons]
    exact andThen_erase (step_erase h) ih

theorem step_passed (canAppend : List Byte → Bool) (s : Loading) {buffer : List Byte}
    (h : Passed buffer) : (s.step canAppend buffer).erase = .next s.erase := by
  unfold step
  rw [parseLine_eq]
  cases hd : lineDirective buffer with
  | none => rfl
  | some d =>
    obtain ⟨name, value⟩ := d
    obtain ⟨hk, hs⟩ := h _ hd
    have hv : value ≠ [] := by
      rintro rfl
      have hnil : isStdout [] = false := by decide
      exact absurd (hnil.symm.trans hs) (by decide)
    have hout : sameText value (ascii "stdout") = true := hs
    simp only [hv, if_false, apply, hk, hout, if_true]
    rfl

theorem run_passed {buffers : List (List Byte)} (h : ∀ b ∈ buffers, Passed b) :
    (s.run canAppend buffers).erase = .next s.erase := by
  induction buffers generalizing s with
  | nil => rfl
  | cons buffer buffers ih =>
    have hstep := step_passed canAppend s (h buffer List.mem_cons_self)
    rw [run_cons]
    cases hs : s.step canAppend buffer with
    | next s₁ =>
      rw [hs] at hstep
      rw [← hstep]
      exact ih fun b hb => h b (List.mem_cons_of_mem _ hb)
    | fail s₁ | blocked s₁ =>
      rw [hs] at hstep
      cases hstep

end Loading
end Erase

section Deletion

theorem buffers_append {text : List Byte} (rest : List Byte) (h : WholeLines text) :
    buffers (text ++ rest) = buffers text ++ buffers rest :=
  fgetsAll_append h le_rfl

variable {line : List Byte}

theorem deletable_of_passed (hline : WholeLines line) (h : ∀ b ∈ buffers line, Passed b) :
    Deletable line := by
  intro files files' path before after hbefore hread hread' hfiles
  rw [load_eq hread, load_eq hread', hfiles, List.append_assoc, buffers_append _ hbefore,
    buffers_append _ hbefore, buffers_append _ hline]
  apply Outcome.observed_of_erase
  rw [Loading.run_append, Loading.run_append]
  apply Loading.andThen_erase rfl
  intro s s' hs
  rw [Loading.run_append]
  have hpassed : (Outcome.next s).erase = (s'.run files.canAppend (buffers line)).erase := by
    rw [Loading.run_passed h]
    exact congrArg Outcome.next hs
  exact Loading.andThen_erase hpassed Loading.run_erase

end Deletion

section Contexts

variable {canAppend : List Byte → Bool} {s s' : Loading}

variable {line : List Byte}

theorem Deletable.run (canAppend : List Byte → Bool) (h : Deletable line) {before : List Byte}
    (hbefore : WholeLines before)
    (hrun : Loading.run canAppend ⟨initServerConfig, false, 0, []⟩ (buffers before) = .next s) :
    ∃ s', s.run canAppend (buffers line) = .next s' ∧ s'.g = s.g := by
  let files : Files := ⟨fun _ => some (before ++ line ++ []), canAppend⟩
  let files' : Files := ⟨fun _ => some (before ++ []), canAppend⟩
  have hsame := h files files' [] before [] hbefore rfl rfl rfl
  have hread : files.read [] = some (before ++ line) := congrArg some (List.append_nil _)
  have hread' : files'.read [] = some before := congrArg some (List.append_nil _)
  rw [load_eq hread, load_eq hread', buffers_append _ hbefore, Loading.run_append] at hsame
  simp only [files, files', hrun, Outcome.andThen] at hsame
  cases hr : s.run canAppend (buffers line) with
  | next s' =>
    rw [hr] at hsame
    exact ⟨s', rfl, (congrArg Prod.snd hsame).symm⟩
  | fail s' | blocked s' =>
    rw [hr] at hsame
    exact absurd (congrArg Prod.fst hsame) (by simp [Outcome.result, LoadResult.observed])

/-- A file that sets each number and each text to another value than the default, and
loses the log mutex on its last line. -/
def otherText : List Byte :=
  ascii "daemonize yes\npidfile p\nport 80\nbind b\ntimeout 1\nmaxclients 1\nmaxthreads 1\n" ++
    ascii "loglevel warning\nfoo bar\n"

def otherSettings : SERVER :=
  { initServerConfig with
    daemonize := 1, pidfile := ascii "p", port := 80, bindaddr := ascii "b", maxidletime := 1
    verbosity := MY_WARNING, maxclients := 1, maxthreads := 1 }

theorem run_otherText (canAppend : List Byte → Bool) :
    ∃ s, Loading.run canAppend ⟨initServerConfig, false, 0, []⟩ (buffers otherText) = .next s ∧
      s.g = otherSettings ∧ s.held = true :=
  ⟨⟨otherSettings, true, 9, [.invalidArgument 9]⟩, rfl, rfl, rfl⟩

theorem otherText_wholeLines : WholeLines otherText :=
  Or.inr ⟨otherText.dropLast, rfl⟩

/-- A setting that both the default and the other file survive is not named. -/
theorem lastValue_eq_none {ds ds' : List (List Byte × List Byte)} {k : Setting}
    (h : loaded ds = initServerConfig) (h' : loaded (ds' ++ ds) = otherSettings)
    (hk : k ≠ .logfile) : lastValue ds k = none := by
  by_contra hne
  obtain ⟨v, hv⟩ := Option.ne_none_iff_exists'.mp hne
  have hv' : lastValue (ds' ++ ds) k = some v := by rw [lastValue_append_list, hv, Option.some_or]
  have hfield : ∀ {α : Type} (f : SERVER → α), f (loaded ds) = f (loaded (ds' ++ ds)) →
      f initServerConfig = f otherSettings := by
    intro α f hf
    rwa [h, h'] at hf
  cases k with
  | daemonize =>
    exact absurd (hfield SERVER.daemonize (by simp [loaded, denoted, hv, hv'])) (by decide)
  | pidfile =>
    exact absurd (hfield SERVER.pidfile (by simp [loaded, denoted, hv, hv'])) (by decide)
  | port => exact absurd (hfield SERVER.port (by simp [loaded, denoted, hv, hv'])) (by decide)
  | bind => exact absurd (hfield SERVER.bindaddr (by simp [loaded, denoted, hv, hv'])) (by decide)
  | timeout =>
    exact absurd (hfield SERVER.maxidletime (by simp [loaded, denoted, hv, hv'])) (by decide)
  | loglevel =>
    exact absurd (hfield SERVER.verbosity (by simp [loaded, denoted, hv, hv'])) (by decide)
  | logfile => exact hk rfl
  | maxclients =>
    exact absurd (hfield SERVER.maxclients (by simp [loaded, denoted, hv, hv'])) (by decide)
  | maxthreads =>
    exact absurd (hfield SERVER.maxthreads (by simp [loaded, denoted, hv, hv'])) (by decide)

/-- In a file of its own and behind the other file, the line betrays every buffer that
does something. -/
theorem passed_of_deletable (h : Deletable line) : ∀ b ∈ buffers line, Passed b := by
  let canAppend : List Byte → Bool := fun _ => true
  obtain ⟨s₀, hrun₀, hg₀⟩ := h.run canAppend (Or.inl rfl : WholeLines []) rfl
  obtain ⟨s, hother, hg, hheld⟩ := run_otherText canAppend
  obtain ⟨s₁, hrun₁, hg₁⟩ := h.run canAppend otherText_wholeLines hother
  obtain ⟨hfold₀, hadm⟩ := Loading.run_next hrun₀
  obtain ⟨hfold, -⟩ := Loading.run_next hother
  obtain ⟨hfold₁, -⟩ := Loading.run_next hrun₁
  have hloaded₀ : loaded ((buffers line).filterMap lineDirective) = initServerConfig := by
    rw [← foldl_assign, ← hfold₀, hg₀]
  have hloaded₁ : loaded ((buffers otherText).filterMap lineDirective ++
      (buffers line).filterMap lineDirective) = otherSettings := by
    rw [← foldl_assign, List.foldl_append, ← hfold, ← hfold₁, hg₁, hg]
  intro b hb d hd
  have hmem : d ∈ (buffers line).filterMap lineDirective := List.mem_filterMap.mpr ⟨b, hb, hd⟩
  have hknown : settingOf d.1 ≠ none := (Loading.run_held hrun₁).1 hheld d hmem
  obtain ⟨k, hk⟩ := Option.ne_none_iff_exists'.mp hknown
  have hlog : k = .logfile := by
    by_contra hne
    obtain ⟨v, hv⟩ := lastValue_isSome hmem hk
    rw [lastValue_eq_none hloaded₀ hloaded₁ hne] at hv
    cases hv
  subst hlog
  refine ⟨hk, ?_⟩
  by_contra hs
  have hpath : (lastPath ((buffers line).filterMap lineDirective)).isSome := by
    rw [lastPath_isSome]
    exact ⟨d, hmem, settingOf_eq_some.mp hk, by simpa using hs⟩
  obtain ⟨path, hpath⟩ := Option.isSome_iff_exists.mp hpath
  have hempty : path = [] := by
    have hlogfile := congrArg SERVER.logfile hloaded₀
    simpa [loaded, hpath, initServerConfig] using hlogfile
  exact lastPath_ne_nil (fun d hd => (hadm d hd).1) hpath hempty

end Contexts

section IdleLines

variable {text : List Byte}

theorem Idle.wholeLines {line : List Byte} (h : Idle line) : WholeLines line := by
  obtain ⟨text, -, rfl, -⟩ := h
  exact Or.inr ⟨text, rfl⟩

theorem passed_of_eq_none {buffer : List Byte} (h : lineDirective buffer = none) :
    Passed buffer := by
  simp [Passed, h]

theorem length_dropWhile_cstr_le (buffer : List Byte) :
    ((cstr buffer).dropWhile isBlank).length ≤ (buffer.dropWhile isBlank).length := by
  induction buffer with
  | nil => exact le_rfl
  | cons b buffer ih =>
    by_cases h0 : b = 0
    · simp [cstr, h0]
    · have hcons : cstr (b :: buffer) = b :: cstr buffer := by simp [cstr, h0]
      rw [hcons]
      cases hb : isBlank b with
      | true => simpa [hb] using ih
      | false => simpa [hb, cstr] using (List.takeWhile_prefix _).length_le

/-- A piece of a blank line is blank, and so is the rest. -/
theorem takeLine_blank (room : ℕ) (h : text.all isBlank = true) :
    ((takeLine room (text ++ [newline])).1.dropWhile isBlank).length ≤ 1 ∧
      ((takeLine room (text ++ [newline])).2 = [] ∨ ∃ text' : List Byte,
        text'.all isBlank = true ∧ (takeLine room (text ++ [newline])).2 = text' ++ [newline]) := by
  induction text generalizing room with
  | nil =>
    cases room with
    | zero => exact ⟨by simp [takeLine], Or.inr ⟨[], rfl, rfl⟩⟩
    | succ room =>
      exact ⟨(by decide : ([newline].dropWhile isBlank).length ≤ 1), Or.inl rfl⟩
  | cons b text ih =>
    cases room with
    | zero => exact ⟨by simp [takeLine], Or.inr ⟨b :: text, h, rfl⟩⟩
    | succ room =>
      simp only [List.all_cons, Bool.and_eq_true] at h
      have hb : b ≠ newline := by
        rintro rfl
        exact absurd h.1 (by decide)
      obtain ⟨hpiece, hrest⟩ := ih room h.2
      simp only [List.cons_append, takeLine, if_neg hb, List.dropWhile_cons, h.1, if_true]
      exact ⟨hpiece, hrest⟩

theorem passed_blank {size fuel : ℕ} (h : text.all isBlank = true) :
    ∀ b ∈ fgetsAll size fuel (text ++ [newline]), Passed b := by
  induction fuel generalizing text with
  | zero => simp [fgetsAll]
  | succ fuel ih =>
    obtain ⟨hpiece, hrest⟩ := takeLine_blank (size - 1) h
    have hcons : fgetsAll size (fuel + 1) (text ++ [newline]) =
        (takeLine (size - 1) (text ++ [newline])).1 ::
          fgetsAll size fuel (takeLine (size - 1) (text ++ [newline])).2 := by
      cases text <;> rfl
    rw [hcons]
    intro b hb
    rcases List.mem_cons.mp hb with rfl | hb
    · refine passed_of_eq_none (if_pos (Or.inl ?_))
      exact (length_dropWhile_cstr_le _).trans (hpiece.trans one_le_two)
    · rcases hrest with hnil | ⟨text', h', htext'⟩
      · rw [hnil] at hb
        cases fuel <;> simp [fgetsAll] at hb
      · rw [htext'] at hb
        exact ih h' b hb

theorem head_dropWhile_cstr {buffer : List Byte}
    (h : (buffer.dropWhile isBlank).head? = some 35) :
    ((cstr buffer).dropWhile isBlank).head? = some 35 := by
  induction buffer with
  | nil => cases h
  | cons b buffer ih =>
    cases hb : isBlank b with
    | true =>
      have h0 : b ≠ 0 := by
        rintro rfl
        exact absurd hb (by decide)
      simp only [List.dropWhile_cons, hb, if_true] at h
      simpa [cstr, h0, hb] using ih h
    | false =>
      obtain rfl : b = 35 := by simpa [hb] using h
      rfl

theorem splitLines_line (h : newline ∉ text) :
    splitLines (text ++ [newline]) = [text ++ [newline]] := by
  induction text with
  | nil => rfl
  | cons b text ih =>
    simp only [List.mem_cons, not_or] at h
    simp only [List.cons_append, splitLines, if_neg (Ne.symm h.1), ih h.2]

theorem deletable_blank (h : text.all isBlank = true) : Deletable (text ++ [newline]) :=
  deletable_of_passed (Or.inr ⟨text, rfl⟩) (passed_blank h)

theorem deletable_comment (hnew : newline ∉ text) (hlen : text.length ≤ 1022)
    (h : (text.dropWhile isBlank).head? = some 35) : Deletable (text ++ [newline]) := by
  have hone : buffers (text ++ [newline]) = [text ++ [newline]] := by
    rw [buffers, fgetsAll_eq_splitLines le_rfl, splitLines_line hnew]
    rw [splitLines_line hnew]
    intro line hl
    obtain rfl := List.mem_singleton.mp hl
    rw [List.length_append]
    exact Nat.add_le_add_right hlen 1
  have hcomment : ((text ++ [newline]).dropWhile isBlank).head? = some 35 := by
    rw [List.dropWhile_append]
    split_ifs with hnil
    · rw [List.isEmpty_iff.mp hnil] at h
      cases h
    · rw [List.head?_append, h, Option.some_or]
  refine deletable_of_passed (Or.inr ⟨text, rfl⟩) ?_
  rw [hone]
  intro b hb
  obtain rfl := List.mem_singleton.mp hb
  exact passed_of_eq_none (if_pos (Or.inr (head_dropWhile_cstr hcomment)))

end IdleLines

/-- A comment or a blank line may be deleted from every file exactly if each buffer that
it fills is skipped or says `logfile stdout`. -/
theorem deletable_iff {line : List Byte} (h : Idle line) :
    Deletable line ↔ ∀ b ∈ buffers line, Passed b :=
  ⟨passed_of_deletable, deletable_of_passed h.wholeLines⟩

theorem deletable_iff_comment :
    Deletable (ascii "  # port 81\n") ↔ ∀ b ∈ buffers (ascii "  # port 81\n"), Passed b :=
  deletable_iff ⟨ascii "  # port 81", by decide, rfl, Or.inr (by decide)⟩

/-- A comment of `n + 1` bytes without its newline. -/
def comment (n : ℕ) : List Byte := 35 :: List.replicate n 120

theorem newline_notMem_comment (n : ℕ) : newline ∉ comment n := by
  simp [comment, newline, List.mem_replicate]

theorem idle_comment (n : ℕ) (more : List Byte) (h : newline ∉ more) :
    Idle (comment n ++ (more ++ [newline])) := by
  refine ⟨comment n ++ more, ?_, (List.append_assoc _ _ _).symm, Or.inr rfl⟩
  rw [List.mem_append, not_or]
  exact ⟨newline_notMem_comment n, h⟩

/-- What stands behind the first 1023 bytes of a comment is read as a directive. -/
theorem not_deletable_comment : ¬∀ line, Idle line → Deletable line := by
  intro h
  have hlen : (comment 1022).length = 1022 + 1 := congrArg (· + 1) List.length_replicate
  have hcut : buffers (comment 1022 ++ ascii "port 81\n") =
      comment 1022 :: buffers (ascii "port 81\n") :=
    fgetsAll_full _ (newline_notMem_comment 1022) hlen
  have hpassed := passed_of_deletable (h _ (idle_comment 1022 (ascii "port 81") (by decide)))
    (ascii "port 81\n") (hcut ▸ List.mem_cons_of_mem _ (by decide))
  exact absurd hpassed (by decide)

end EpollThreads.Config
