import EpollThreads.Config.LineBuffer

/-!
# The line loop splits lines

The pass over the buffer makes the same of a line as the plain split of its
text, leaves the buffer at its size and touches nothing outside it.
-/

namespace EpollThreads.Config

open Foundations Logging

section Loops

variable {s t : List Byte}

theorem leadingBlanks_le (t : List Byte) : leadingBlanks t ≤ t.length := by
  induction t with
  | nil => exact le_rfl
  | cons b t ih =>
    cases t with
    | nil => exact Nat.zero_le _
    | cons c t =>
      rw [leadingBlanks]
      split_ifs
      · exact Nat.succ_le_succ ih
      · exact Nat.zero_le _

theorem trimmedLength_le (value : List Byte) (i : ℕ) : trimmedLength value i ≤ i := by
  induction i with
  | zero => exact le_rfl
  | succ i ih =>
    rw [trimmedLength]
    split_ifs
    · exact ih.trans (Nat.le_succ i)
    · exact le_rfl

/-- The test with `(int) strlen(s) - 1` keeps the index inside the string. -/
theorem skipBlanks_eq (h : Holds s t) {fuel i : ℕ} (hi : i ≤ t.length)
    (hfuel : t.length < i + fuel) :
    skipBlanks s fuel i = some (i + leadingBlanks (t.drop i)) := by
  induction fuel generalizing i with
  | zero => omega
  | succ fuel ih =>
    rw [skipBlanks, strlen_eq h]
    simp only [Option.bind_eq_bind, Option.bind_some]
    by_cases hlt : (i : ℤ) < (t.length : ℤ) - 1
    · have hfst : i < t.length := by omega
      have hsnd : i + 1 < t.length := by omega
      rw [if_pos hlt, h.getElem hfst, Option.bind_some, List.drop_eq_getElem_cons hfst,
        List.drop_eq_getElem_cons hsnd, leadingBlanks, ← List.drop_eq_getElem_cons hsnd]
      cases hb : isBlank t[i] with
      | true =>
        simp only [if_true]
        rw [ih hsnd.le (by omega)]
        congr 1
        omega
      | false => rfl
    · rw [if_neg hlt]
      have hlen : (t.drop i).length ≤ 1 := by
        rw [List.length_drop]
        omega
      rcases hd : t.drop i with _ | ⟨b, _ | ⟨c, rest⟩⟩
      · rfl
      · rfl
      · rw [hd] at hlen
        simp at hlen

theorem trimEnd_eq (h : Holds s t) {i : ℕ} (hi : i ≤ t.length) :
    trimEnd s i = some (trimmedLength t i) := by
  induction i with
  | zero => rfl
  | succ i ih =>
    have hlt : i < t.length := hi
    have hget : t.getD i 0 = t[i] := by simp [hlt]
    rw [trimEnd, trimmedLength, h.getElem hlt, ih hlt.le, hget]
    simp only [Option.bind_eq_bind, Option.bind_some]
    split_ifs <;> rfl

end Loops

section Pass

variable {buffer t : List Byte}

theorem splitValue_spec {buff blank : ℕ} (h : Holds (buffer.drop buff) t)
    (hblank : blank < t.length) :
    ∃ split buffer', splitValue buffer buff blank = some (split, buffer') ∧
      buffer'.length = buffer.length ∧
        split.Spells buffer' (argument (t.take blank) (t.drop (blank + 1))) := by
  have hname := h.cut_add hblank.le
  have hrest : Holds ((buffer.set (buff + blank) 0).drop (buff + blank + 1)) (t.drop (blank + 1)) :=
    (h.drop_add hblank : Holds (buffer.drop (buff + (blank + 1))) _).set_before (Nat.lt_succ_self _)
  have hnameLen : (t.take blank).length = blank := List.length_take_of_le hblank.le
  have hlen : (buffer.set (buff + blank) 0).length = buffer.length := List.length_set
  rw [splitValue, storeByte_eq (h.add_lt hblank.le), argument]
  simp only [Option.bind_eq_bind, Option.bind_some]
  generalize buffer.set (buff + blank) 0 = buffer₁ at *
  generalize t.take blank = name at *
  generalize t.drop (blank + 1) = rest at *
  -- the indentation of the argument
  have hfuel : rest.length < buffer₁.length := (Nat.le_add_left _ _).trans_lt (hrest.add_lt le_rfl)
  rw [skipBlanks_eq hrest (Nat.zero_le _) (by omega), List.drop_zero, Nat.zero_add]
  simp only [Option.bind_some]
  have hvalue := hrest.drop_add (leadingBlanks_le rest)
  have hle : buff + name.length < buff + blank + 1 + leadingBlanks rest := by omega
  generalize buff + blank + 1 + leadingBlanks rest = q at *
  generalize rest.drop (leadingBlanks rest) = value at *
  -- its end
  rw [strlen_eq hvalue]
  simp only [Option.bind_some]
  rw [trimEnd_eq hvalue le_rfl]
  simp only [Option.bind_some]
  have hi := trimmedLength_le value value.length
  generalize trimmedLength value value.length = i at *
  split_ifs with hzero
  · exact ⟨_, _, rfl, hlen, trivial⟩
  · refine ⟨.directive buff q, buffer₁.set (q + i) 0, ?_, List.length_set.trans hlen,
      hname.set_behind (by omega), hvalue.cut_add hi⟩
    rw [storeByte_eq (hvalue.add_lt hi), Option.bind_some]

theorem splitLine_spec (h : Holds buffer t) :
    ∃ split buffer', splitLine buffer = some (split, buffer') ∧ buffer'.length = buffer.length ∧
      split.Spells buffer' (parseBuff (t.drop (leadingBlanks t))) := by
  have hbuff := h.drop (leadingBlanks_le t)
  rw [splitLine, skipBlanks_eq h (Nat.zero_le _) (by simpa using h.length_lt), List.drop_zero,
    Nat.zero_add, parseBuff]
  simp only [Option.bind_eq_bind, Option.bind_some]
  generalize leadingBlanks t = buff at *
  generalize t.drop buff = text at *
  rw [strlen_eq hbuff, Option.bind_some]
  by_cases hshort : text.length ≤ 2
  · rw [if_pos hshort, if_pos (Or.inl hshort)]
    exact ⟨_, _, rfl, rfl, trivial⟩
  · have hget : buffer[buff]? = some text[0] := by
      have hfst := hbuff.getElem (i := 0) (by omega)
      rwa [List.getElem?_drop, Nat.add_zero] at hfst
    have hhead : text.head? = some text[0] := List.head?_eq_getElem? ▸ List.getElem?_eq_getElem _
    rw [if_neg hshort, hget, Option.bind_some, hhead]
    simp only [Option.some.injEq, hshort, false_or]
    split_ifs with hcomment
    · exact ⟨_, _, rfl, rfl, trivial⟩
    · rw [strpbrk_eq isBlank hbuff, Option.bind_some]
      cases hblank : text.findIdx? isBlank with
      | none => exact ⟨_, _, rfl, rfl, trivial⟩
      | some blank => exact splitValue_spec hbuff (List.findIdx?_eq_some_iff_getElem.mp hblank).1

end Pass

section Branches

variable {canAppend : List Byte → Bool} {ns vs name value : List Byte}

theorem settingOf_eq_find (name : List Byte) :
    settingOf name = (settingNames.find? fun entry => sameText name entry.1).map Prod.snd := by
  unfold settingOf settingNames
  simp only [List.find?_cons]
  split_ifs <;> simp [*]

theorem verbosityOf_eq_find (value : List Byte) :
    verbosityOf value = (levelNames.find? fun entry => sameText value entry.1).map Prod.snd := by
  unfold verbosityOf levelNames
  simp only [List.find?_cons]
  split_ifs <;> simp [*]

/-- The branches read the two strings and no further, and copy no argument that is longer than
the buffer it came from. -/
theorem Loading.applyBytes_eq (s : Loading) (hname : Holds ns name) (hvalue : Holds vs value)
    (hlen : value.length < MIN_BUFSZ) :
    s.applyBytes canAppend ns vs = some (s.apply canAppend name value) := by
  have hset : firstMatch ns settingNames = some (settingOf name) := by
    rw [firstMatch_eq hname (by decide), settingOf_eq_find]
  have hcopy := strcpy_eq hvalue hlen
  have hint := readInt_eq hvalue
  have hlevel : firstMatch vs levelNames = some (verbosityOf value) := by
    rw [firstMatch_eq hvalue (by decide), verbosityOf_eq_find]
  have hstdout : (0 : Byte) ∉ ascii "stdout" := by decide
  have hout := equalText_eq hvalue hstdout
  have htexts : ∀ entry ∈ [(ascii "yes", (1 : ℤ)), (ascii "no", 0)], 0 ∉ entry.1 := by decide
  have hyes := firstMatch_eq hvalue htexts
  rw [applyBytes, apply, hset]
  simp only [Option.bind_eq_bind, Option.bind_some]
  cases settingOf name with
  | none => rfl
  | some k =>
    cases k with
    | pidfile | bind => simp only [hcopy, Option.bind_some]
    | port | timeout | maxclients | maxthreads => simp only [hint, Option.bind_some]
    | daemonize =>
      simp only [hyes, Option.bind_some, List.find?_cons]
      cases sameText value (ascii "yes") <;> cases sameText value (ascii "no") <;> rfl
    | loglevel =>
      simp only [hlevel, Option.bind_some]
      cases verbosityOf value <;> rfl
    | logfile =>
      simp only [hout, hcopy, Option.bind_some]
      split_ifs <;> rfl

/-- One pass: no access outside the buffer, and what the loader's model makes of the piece. -/
theorem Loading.stepBytes_eq (canAppend : List Byte → Bool) (s : Loading) {buffer piece : List Byte}
    (hbuffer : buffer.length = MY_CONFIGLINE_MAX) (hpiece : piece.length < MY_CONFIGLINE_MAX) :
    ∃ buffer', buffer'.length = MY_CONFIGLINE_MAX ∧
      s.stepBytes canAppend buffer piece = some (s.step canAppend piece, buffer') := by
  obtain ⟨split, buffer', hsplit, hlen, hspells⟩ :=
    splitLine_spec (holds_cstr piece (buffer.drop (piece.length + 1)))
  have hlen' : buffer'.length = MY_CONFIGLINE_MAX := by
    simp only [List.length_append, List.length_cons, List.length_drop] at hlen
    omega
  refine ⟨buffer', hlen', ?_⟩
  rw [stepBytes, storeString_eq (hpiece.trans_eq hbuffer.symm), step, parseLine]
  simp only [Option.bind_eq_bind, Option.bind_some, hsplit]
  cases split with
  | skipped | missing =>
    cases hline : parseBuff ((cstr piece).drop (leadingBlanks (cstr piece))) <;>
      rw [hline] at hspells <;> first | rfl | exact hspells.elim
  | directive p q =>
    cases hline : parseBuff ((cstr piece).drop (leadingBlanks (cstr piece))) with
    | skipped | missing =>
      rw [hline] at hspells
      exact hspells.elim
    | directive name value =>
      rw [hline] at hspells
      have hvalue : value.length < MIN_BUFSZ := by
        have hlt := hspells.2.add_lt le_rfl
        rw [hlen'] at hlt
        exact (Nat.le_add_left _ _).trans_lt hlt
      simp only [applyBytes_eq _ hspells.1 hspells.2 hvalue, Option.bind_some]

end Branches

section Reference

/-- The split of a line by its text alone. -/
def plainSplit (s : List Byte) : Line :=
  let b := s.dropWhile isBlank
  if b.length ≤ 2 ∨ b.head? = some 35 then .skipped
  else
    let name := b.takeWhile (!isBlank ·)
    let value := strip (b.dropWhile (!isBlank ·)).tail
    if value = [] then .missing else .directive name value

/-- What the loop does with a split line. -/
def Loading.obey (canAppend : List Byte → Bool) (s : Loading) : Line → Outcome
  | .skipped => .next { s with line := s.line + 1 }
  | .missing => { s with line := s.line + 1 }.say (.missingArgument (s.line + 1)) .fail
  | .directive name value => { s with line := s.line + 1 }.apply canAppend name value

theorem strip_tail (b : List Byte) :
    strip (b.dropWhile (!isBlank ·)).tail = strip (b.dropWhile (!isBlank ·)) := by
  cases hd : b.dropWhile (!isBlank ·) with
  | nil => rfl
  | cons c rest =>
    have hne : b.dropWhile (!isBlank ·) ≠ [] := by simp [hd]
    have hhead := List.head_dropWhile_not (!isBlank ·) hne
    have hblank : isBlank c = true := by simpa [hd] using hhead
    rw [List.tail_cons, strip, strip, List.dropWhile_cons, if_pos hblank]

theorem parseLine_eq_plainSplit {s : List Byte} (h : 0 ∉ s) : parseLine s = plainSplit s := by
  rw [parseLine_eq, lineDirective, cstr_eq_self h, plainSplit]
  simp only [strip_tail]
  by_cases hskip : (s.dropWhile isBlank).length ≤ 2 ∨ (s.dropWhile isBlank).head? = some 35
  · simp only [if_pos hskip]
  · simp only [if_neg hskip]

/-- On a line without a NUL the pass over the buffer skips, complains and dispatches as the plain
split says. -/
theorem line_splitting (canAppend : List Byte → Bool) (s : Loading) {buffer piece : List Byte}
    (hbuffer : buffer.length = MY_CONFIGLINE_MAX) (hpiece : piece.length ≤ 1023)
    (hnul : 0 ∉ piece) :
    ∃ buffer', s.stepBytes canAppend buffer piece =
      some (s.obey canAppend (plainSplit piece), buffer') := by
  obtain ⟨buffer', -, hstep⟩ := s.stepBytes_eq canAppend hbuffer
    (Nat.lt_succ_of_le hpiece)
  refine ⟨buffer', ?_⟩
  have hobey : s.step canAppend piece = s.obey canAppend (parseLine piece) := by
    unfold Loading.step Loading.obey
    cases parseLine piece <;> rfl
  rw [hstep, hobey, parseLine_eq_plainSplit hnul]

theorem line_splitting_port :
    ∃ buffer', Loading.stepBytes (fun _ => true) ⟨initServerConfig, false, 0, []⟩
        (List.replicate MY_CONFIGLINE_MAX 0) (ascii " port\t 80 \n") =
      some (.next ⟨{ initServerConfig with port := 80 }, false, 1, []⟩, buffer') :=
  line_splitting (fun _ => true) ⟨initServerConfig, false, 0, []⟩ List.length_replicate (by decide)
    (by decide)

end Reference

end EpollThreads.Config
