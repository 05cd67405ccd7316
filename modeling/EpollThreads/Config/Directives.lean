import EpollThreads.Config.Loader

/-!
# Directives

What a buffer says, without the loader's index loops, and what one directive
does to `g_Server`. A load that returns 0 applies the directives of its buffers
in their order, and admitted each of them.
-/

namespace EpollThreads.Config

open Foundations Logging

def isTrailing (b : Byte) : Bool := isBlank b || b == newline

def stripRight (s : List Byte) : List Byte := (s.reverse.dropWhile isTrailing).reverse

def strip (s : List Byte) : List Byte := stripRight (s.dropWhile isBlank)

/-- The name and the argument in a buffer; comments and lines of at most two
bytes after the indentation have neither. -/
def lineDirective (line : List Byte) : Option (List Byte × List Byte) :=
  let text := (cstr line).dropWhile isBlank
  if text.length ≤ 2 ∨ text.head? = some 35 then none
  else some (text.takeWhile (!isBlank ·), strip (text.dropWhile (!isBlank ·)))

/-- The loop that skips blanks leaves the last byte alone. -/
theorem drop_leadingBlanks (s : List Byte) :
    s.drop (leadingBlanks s) = s.dropWhile isBlank ∨
      ∃ b, isBlank b = true ∧ s.drop (leadingBlanks s) = [b] ∧ s.dropWhile isBlank = [] := by
  induction s with
  | nil => exact Or.inl rfl
  | cons b s ih =>
    cases s with
    | nil =>
      cases hb : isBlank b with
      | false => exact Or.inl (by simp [leadingBlanks, hb])
      | true => exact Or.inr ⟨b, hb, rfl, by simp [hb]⟩
    | cons c s =>
      cases hb : isBlank b with
      | false => exact Or.inl (by simp [leadingBlanks, hb])
      | true => simpa [leadingBlanks, hb, List.dropWhile_cons] using ih

theorem stripRight_append_singleton (s : List Byte) (b : Byte) :
    stripRight (s ++ [b]) = if isTrailing b then stripRight s else s ++ [b] := by
  cases hb : isTrailing b <;> simp [stripRight, hb]

theorem take_trimmedLength (value : List Byte) {i : ℕ} (h : i ≤ value.length) :
    value.take (trimmedLength value i) = stripRight (value.take i) := by
  induction i with
  | zero => simp [trimmedLength, stripRight]
  | succ i ih =>
    have hlt : i < value.length := h
    have hget : value.getD i 0 = value[i] := by simp [hlt]
    have hsplit : value.take (i + 1) = value.take i ++ [value[i]] :=
      (List.take_append_getElem hlt).symm
    have htest : (isBlank (value.getD i 0) || value.getD i 0 == newline) =
        isTrailing value[i] := by rw [hget]; rfl
    rw [trimmedLength, htest, hsplit, stripRight_append_singleton]
    cases ht : isTrailing value[i] with
    | true => exact ih hlt.le
    | false => exact hsplit

theorem stripRight_drop_leadingBlanks (s : List Byte) :
    stripRight (s.drop (leadingBlanks s)) = strip s := by
  rcases drop_leadingBlanks s with h | ⟨b, hb, h, hnil⟩
  · rw [h, strip]
  · simp [h, strip, hnil, stripRight, isTrailing, hb]

/-- Cutting off the argument is stripping the text after the name. -/
theorem argument_eq (name rest : List Byte) :
    argument name rest = if strip rest = [] then .missing else .directive name (strip rest) := by
  have htake := take_trimmedLength (rest.drop (leadingBlanks rest)) le_rfl
  rw [List.take_length, stripRight_drop_leadingBlanks] at htake
  have hnil : strip rest = [] ↔ trimmedLength (rest.drop (leadingBlanks rest))
      (rest.drop (leadingBlanks rest)).length = 0 := by
    rw [← htake]
    constructor
    · intro h
      rcases List.take_eq_nil_iff.mp h with h | h
      · exact h
      · simp [h, trimmedLength]
    · intro h
      rw [h, List.take_zero]
  simp only [argument, htake, hnil]

/-- The first blank of a text separates the name from the rest. -/
theorem findIdx_blank (text : List Byte) :
    match text.findIdx? isBlank with
    | none => text.dropWhile (!isBlank ·) = []
    | some i => text.take i = text.takeWhile (!isBlank ·) ∧
        ∃ b, isBlank b = true ∧ text.dropWhile (!isBlank ·) = b :: text.drop (i + 1) := by
  induction text with
  | nil => rfl
  | cons b text ih =>
    cases hb : isBlank b with
    | true => simp [List.findIdx?_cons, hb]
    | false =>
      cases hf : text.findIdx? isBlank with
      | none =>
        rw [hf] at ih
        simpa [List.findIdx?_cons, hb, hf] using ih
      | some i =>
        rw [hf] at ih
        simpa [List.findIdx?_cons, hb, hf] using ih

/-- The loader splits a line as `lineDirective` does, and rejects an empty argument. -/
theorem parseLine_eq (line : List Byte) :
    parseLine line = match lineDirective line with
      | none => .skipped
      | some (name, value) => if value = [] then .missing else .directive name value := by
  have hskip : parseLine line = parseBuff ((cstr line).dropWhile isBlank) := by
    rcases drop_leadingBlanks (cstr line) with h | ⟨b, -, h, hnil⟩
    · rw [parseLine, h]
    · simp [parseLine, parseBuff, h, hnil]
  rw [hskip, lineDirective, parseBuff]
  generalize (cstr line).dropWhile isBlank = text
  have hblank := findIdx_blank text
  split_ifs
  · rfl
  · cases hf : text.findIdx? isBlank with
    | none =>
      rw [hf] at hblank
      simp [hblank, strip, stripRight]
    | some i =>
      rw [hf] at hblank
      obtain ⟨hname, b, hb, hrest⟩ := hblank
      have hstrip : strip (text.dropWhile (!isBlank ·)) = strip (text.drop (i + 1)) := by
        rw [hrest, strip, List.dropWhile_cons, if_pos hb, strip]
      simp only [argument_eq, hname, hstrip]

def isStdout (value : List Byte) : Bool := sameText value (ascii "stdout")

/-- What a directive does to `g_Server`. -/
def assign (g : SERVER) (d : List Byte × List Byte) : SERVER :=
  match settingOf d.1 with
  | some .daemonize => { g with daemonize := if sameText d.2 (ascii "yes") then 1 else 0 }
  | some .pidfile => { g with pidfile := d.2 }
  | some .port => { g with port := atoi d.2 }
  | some .bind => { g with bindaddr := d.2 }
  | some .timeout => { g with maxidletime := atoi d.2 }
  | some .loglevel => { g with verbosity := (verbosityOf d.2).getD MY_DEBUG }
  | some .logfile => { g with logfile := if isStdout d.2 then g.logfile else d.2 }
  | some .maxclients => { g with maxclients := atoi d.2 }
  | some .maxthreads => { g with maxthreads := atoi d.2 }
  | none => g

/-- The directives that do not end the load. -/
def Admissible (canAppend : List Byte → Bool) (d : List Byte × List Byte) : Prop :=
  d.2 ≠ [] ∧ match settingOf d.1 with
    | some .daemonize => sameText d.2 (ascii "yes") ∨ sameText d.2 (ascii "no")
    | some .port => 0 ≤ atoi d.2 ∧ atoi d.2 ≤ 65535
    | some .timeout => 0 ≤ atoi d.2
    | some .loglevel => (verbosityOf d.2).isSome
    | some .logfile => isStdout d.2 ∨ canAppend d.2
    | some .maxclients => 1 ≤ atoi d.2
    | some .maxthreads => 1 ≤ atoi d.2
    | some .pidfile | some .bind | none => True

namespace Loading

variable {canAppend : List Byte → Bool} {s s' : Loading}

theorem say_fail_ne_next {m : Message} : s.say m .fail ≠ .next s' := by
  unfold say
  split <;> simp

theorem say_next {m : Message} (h : s.say m .next = .next s') : s'.g = s.g := by
  unfold say at h
  split at h
  · obtain rfl := Outcome.next.inj h
    rfl
  · cases h

theorem number_next {g : SERVER} {admitted : Bool} {m : Message}
    (h : s.number g admitted m = .next s') : admitted = true ∧ s'.g = g := by
  unfold number at h
  split_ifs at h with ha
  · obtain rfl := Outcome.next.inj h
    exact ⟨ha, rfl⟩
  · exact absurd h say_fail_ne_next

theorem next_of_next {s₁ : Loading} (h : Outcome.next s₁ = .next s') : s'.g = s₁.g := by
  rw [Outcome.next.inj h]

theorem apply_next {name value : List Byte} (h : s.apply canAppend name value = .next s')
    (hv : value ≠ []) : s'.g = assign s.g (name, value) ∧ Admissible canAppend (name, value) := by
  unfold apply at h
  unfold assign Admissible
  simp only [ne_eq, hv, not_false_eq_true, true_and]
  cases hk : settingOf name with
  | none =>
    rw [hk] at h
    exact ⟨say_next h, trivial⟩
  | some k =>
    rw [hk] at h
    cases k with
    | daemonize =>
      simp only at h ⊢
      split_ifs at h with hy hn
      · rw [if_pos hy]
        exact ⟨next_of_next h, Or.inl hy⟩
      · rw [if_neg hy]
        exact ⟨next_of_next h, Or.inr hn⟩
      · exact absurd h say_fail_ne_next
    | pidfile | bind => exact ⟨next_of_next h, trivial⟩
    | port | timeout | maxclients | maxthreads =>
      obtain ⟨ha, hg⟩ := number_next h
      exact ⟨hg, by simpa using ha⟩
    | loglevel =>
      cases hl : verbosityOf value with
      | some verbosity =>
        simp only [hl] at h
        exact ⟨next_of_next h, rfl⟩
      | none =>
        simp only [hl] at h
        exact absurd h say_fail_ne_next
    | logfile =>
      simp only at h ⊢
      split_ifs at h with hs hc
      · rw [isStdout, if_pos hs]
        exact ⟨next_of_next h, Or.inl hs⟩
      · rw [isStdout, if_neg hs]
        exact ⟨next_of_next h, Or.inr hc⟩
      · exact absurd h say_fail_ne_next

theorem step_next {buffer : List Byte} (h : s.step canAppend buffer = .next s') :
    s'.g = (lineDirective buffer).elim s.g (assign s.g) ∧
      ∀ d ∈ lineDirective buffer, Admissible canAppend d := by
  unfold step at h
  rw [parseLine_eq] at h
  cases hd : lineDirective buffer with
  | none =>
    simp only [hd] at h
    obtain rfl := Outcome.next.inj h
    exact ⟨rfl, by simp⟩
  | some d =>
    obtain ⟨name, value⟩ := d
    simp only [hd] at h
    by_cases hv : value = []
    · simp only [hv, if_true] at h
      exact absurd h say_fail_ne_next
    · simp only [hv, if_false] at h
      obtain ⟨hg, ha⟩ := apply_next h hv
      refine ⟨hg, ?_⟩
      rintro d ⟨⟩
      exact ha

theorem run_next {buffers : List (List Byte)} (h : s.run canAppend buffers = .next s') :
    s'.g = (buffers.filterMap lineDirective).foldl assign s.g ∧
      ∀ d ∈ buffers.filterMap lineDirective, Admissible canAppend d := by
  induction buffers generalizing s with
  | nil =>
    obtain rfl := Outcome.next.inj h
    exact ⟨rfl, by simp⟩
  | cons buffer buffers ih =>
    rw [run] at h
    split at h
    · rename_i s₁ hs
      obtain ⟨hg, ha⟩ := step_next hs
      obtain ⟨hg', ha'⟩ := ih h
      cases hd : lineDirective buffer with
      | none =>
        rw [hd] at hg
        simp only [List.filterMap_cons, hd]
        exact ⟨by rw [hg', hg]; rfl, ha'⟩
      | some d =>
        rw [hd] at hg ha
        simp only [List.filterMap_cons, hd, List.foldl_cons]
        refine ⟨by rw [hg', hg]; rfl, ?_⟩
        intro e he
        rcases List.mem_cons.mp he with rfl | he
        · exact ha e rfl
        · exact ha' e he
    · rename_i hne
      exact absurd h (hne s')

end Loading

/-- The buffers that `fgets` fills from a text. -/
def buffers (text : List Byte) : List (List Byte) :=
  fgetsAll MY_CONFIGLINE_MAX text.length text

theorem load_eq {files : Files} {path content : List Byte} {g : SERVER}
    (hread : files.read path = some content) :
    loadServerConfig files (some path) g =
      (Loading.run files.canAppend ⟨g, false, 0, []⟩ (buffers content)).result := by
  simp only [loadServerConfig, hread, buffers]

theorem Outcome.eq_next {o : Outcome} {s : Loading} (h : o.result = .returned 0 s) :
    o = .next s := by
  cases o with
  | next s' => rw [(LoadResult.returned.inj h).2]
  | fail s' => exact absurd (LoadResult.returned.inj h).1 (by decide)
  | blocked s' => cases h

theorem run_of_returned {files : Files} {path content : List Byte} {g : SERVER} {s : Loading}
    (hread : files.read path = some content)
    (h : loadServerConfig files (some path) g = .returned 0 s) :
    Loading.run files.canAppend ⟨g, false, 0, []⟩ (buffers content) = .next s := by
  rw [load_eq hread] at h
  exact Outcome.eq_next h

theorem Accepts.directives {files : Files} {content : List Byte} {g : SERVER}
    (h : Accepts files content g) :
    let ds := (fgetsAll MY_CONFIGLINE_MAX content.length content).filterMap lineDirective
    g = ds.foldl assign initServerConfig ∧ ∀ d ∈ ds, Admissible files.canAppend d := by
  obtain ⟨path, s, hread, hload, rfl⟩ := h
  exact Loading.run_next (run_of_returned hread hload)

end EpollThreads.Config
