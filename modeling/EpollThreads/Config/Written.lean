import Mathlib.Data.List.DropRight
import EpollThreads.Config.Inert
import EpollThreads.Config.LastDirective
import EpollThreads.Config.Numbers
import EpollThreads.Config.Range

/-!
# Settings and the files that say them

Which directives a file can carry, and which values of `g_Server` an accepted
file can leave behind. Both are shown by writing them out, one directive a
line, and reading them back. A line may fill its buffer without the newline,
which then is a buffer of its own.
-/

namespace EpollThreads.Config

open Foundations Logging

/-- An argument as the loader cuts it. -/
structure Text (value : List Byte) : Prop where
  ne_nil : value ≠ []
  no_nul : 0 ∉ value
  no_newline : newline ∉ value
  head : ∀ b ∈ value.head?, isBlank b = false
  last : ∀ b ∈ value.getLast?, isTrailing b = false

theorem text_iff {value : List Byte} : Text value ↔ value ≠ [] ∧ 0 ∉ value ∧ newline ∉ value ∧
    value.head?.all (fun b => !isBlank b) = true ∧
      value.getLast?.all (fun b => !isTrailing b) = true := by
  simp only [Option.all_eq_true, Bool.not_eq_true']
  exact ⟨fun ⟨h1, h2, h3, h4, h5⟩ => ⟨h1, h2, h3, h4, h5⟩,
    fun ⟨h1, h2, h3, h4, h5⟩ => ⟨h1, h2, h3, h4, h5⟩⟩

instance (value : List Byte) : Decidable (Text value) := decidable_of_iff _ text_iff.symm

/-- A name as the loader cuts it. -/
structure Name (name : List Byte) : Prop where
  ne_nil : name ≠ []
  no_nul : 0 ∉ name
  no_newline : newline ∉ name
  no_blank : ∀ b ∈ name, isBlank b = false
  head : name.head? ≠ some 35

theorem name_iff {name : List Byte} : Name name ↔ name ≠ [] ∧ 0 ∉ name ∧ newline ∉ name ∧
    name.all (fun b => !isBlank b) = true ∧ name.head? ≠ some 35 := by
  simp only [List.all_eq_true, Bool.not_eq_true']
  exact ⟨fun ⟨h1, h2, h3, h4, h5⟩ => ⟨h1, h2, h3, h4, h5⟩,
    fun ⟨h1, h2, h3, h4, h5⟩ => ⟨h1, h2, h3, h4, h5⟩⟩

instance (name : List Byte) : Decidable (Name name) := decidable_of_iff _ name_iff.symm

/-- Name, blank and argument fit into a buffer. -/
def FitsLine (name value : List Byte) : Prop := name.length + 1 + value.length ≤ 1023

structure WellFormed (d : List Byte × List Byte) : Prop where
  name : Name d.1
  value : Text d.2
  fits : FitsLine d.1 d.2

section Reading

theorem newline_takeLine (room : ℕ) (text : List Byte) :
    newline ∉ (takeLine room text).1.dropLast := by
  fun_induction takeLine room text with
  | case1 | case2 | case3 => simp
  | case4 room b text hb ih =>
    cases hl : (takeLine room text).1 with
    | nil => simp
    | cons c line =>
      rw [hl] at ih
      rw [List.dropLast_cons_of_ne_nil (by simp), List.mem_cons, not_or]
      exact ⟨Ne.symm hb, ih⟩

theorem newline_fgetsAll {size fuel : ℕ} {text piece : List Byte}
    (h : piece ∈ fgetsAll size fuel text) : newline ∉ piece.dropLast := by
  fun_induction fgetsAll size fuel text with
  | case1 | case2 => simp at h
  | case3 fuel b text ih =>
    rcases List.mem_cons.mp h with rfl | h
    · exact newline_takeLine _ _
    · exact ih h

theorem newline_dropLast_of_infix {s t : List Byte} (h : s <:+: t) (ht : newline ∉ t.dropLast) :
    newline ∉ s.dropLast := by
  obtain ⟨front, back, rfl⟩ := h
  intro hs
  apply ht
  rcases List.eq_nil_or_concat back with rfl | ⟨back, b, rfl⟩
  · rcases List.eq_nil_or_concat s with rfl | ⟨s, c, rfl⟩
    · simp at hs
    · rw [List.append_nil, List.dropLast_append_of_ne_nil (by simp)]
      exact List.mem_append_right _ hs
  · rw [List.concat_eq_append, ← List.append_assoc, List.dropLast_concat]
    exact List.mem_append_left _ (List.mem_append_right _ (List.dropLast_subset _ hs))

theorem stripRight_prefix (s : List Byte) : stripRight s <+: s :=
  List.rdropWhile_prefix isTrailing s

theorem getLast?_stripRight {s : List Byte} {b : Byte} (h : b ∈ (stripRight s).getLast?) :
    isTrailing b = false := by
  obtain ⟨hne, rfl⟩ := List.mem_getLast?_eq_getLast h
  exact Bool.eq_false_of_not_eq_true (List.rdropWhile_last_not isTrailing s hne)

theorem mem_head?_mono {s t : List Byte} (h : s <+: t) {b : Byte} (hb : b ∈ s.head?) :
    b ∈ t.head? := by
  obtain ⟨rest, rfl⟩ := h
  rw [List.head?_append, hb]
  rfl

theorem text_strip {s : List Byte} (hne : strip s ≠ []) (hnul : 0 ∉ s)
    (hnew : newline ∉ s.dropLast) : Text (strip s) := by
  have hpre : strip s <+: s.dropWhile isBlank := stripRight_prefix _
  have hinf : strip s <:+: s := hpre.isInfix.trans (List.dropWhile_suffix _).isInfix
  refine ⟨hne, fun h => hnul (hinf.subset h), fun h => ?_, fun b hb => ?_,
    fun b hb => getLast?_stripRight hb⟩
  · have hsplit := List.dropLast_concat_getLast hne
    rw [← hsplit, List.mem_append, List.mem_singleton] at h
    rcases h with h | h
    · exact newline_dropLast_of_infix hinf hnew h
    · have htrail := getLast?_stripRight (List.getLast_mem_getLast? hne)
      rw [← h] at htrail
      exact absurd htrail (by decide)
  · have hhead := List.head?_dropWhile_not isBlank s
    rw [mem_head?_mono hpre hb] at hhead
    exact hhead

theorem name_takeWhile {text : List Byte} {b : Byte} (hb : b ∈ text.head?)
    (hblank : isBlank b = false) (hcomment : b ≠ 35) (hnul : 0 ∉ text)
    (hnew : newline ∉ text.takeWhile (!isBlank ·)) : Name (text.takeWhile (!isBlank ·)) := by
  cases text with
  | nil => cases hb
  | cons c text =>
    obtain rfl := Option.some.inj hb
    have hcons : (c :: text).takeWhile (!isBlank ·) = c :: text.takeWhile (!isBlank ·) := by
      simp [hblank]
    refine ⟨by simp [hcons], fun h => hnul ((List.takeWhile_sublist _).subset h), hnew,
      fun a ha => by simpa using List.mem_takeWhile_imp ha, ?_⟩
    rw [hcons]
    exact fun h => hcomment (Option.some.inj h)

/-- A buffer carries a well-formed directive, or one without an argument. -/
theorem wellFormed_of_lineDirective {piece : List Byte} {d : List Byte × List Byte}
    (hlen : piece.length ≤ 1023) (hnew : newline ∉ piece.dropLast)
    (hd : lineDirective piece = some d) (hne : d.2 ≠ []) : WellFormed d := by
  have hinf : (cstr piece).dropWhile isBlank <:+: piece :=
    (List.dropWhile_suffix _).isInfix.trans (List.takeWhile_prefix _).isInfix
  have hnul : 0 ∉ (cstr piece).dropWhile isBlank := fun h =>
    absurd (List.mem_takeWhile_imp ((List.dropWhile_suffix _).subset h)) (by simp)
  have hhead := List.head?_dropWhile_not isBlank (cstr piece)
  unfold lineDirective at hd
  simp only at hd
  split_ifs at hd with hskip
  obtain rfl := Option.some.inj hd
  generalize (cstr piece).dropWhile isBlank = text at hinf hnul hhead hskip hne
  simp only [not_or, not_le] at hskip
  obtain ⟨htext, hcomment⟩ := hskip
  have hsplit := List.takeWhile_append_dropWhile (p := (!isBlank ·)) (l := text)
  have hrest : text.dropWhile (!isBlank ·) ≠ [] := by
    intro h
    simp [h, strip, stripRight] at hne
  obtain ⟨c, rest, hc⟩ := List.exists_cons_of_ne_nil hrest
  have hcblank : isBlank c = true := by
    have h := List.head?_dropWhile_not (!isBlank ·) text
    rw [hc] at h
    simpa using h
  have hstrip : strip (text.dropWhile (!isBlank ·)) = strip rest := by
    rw [hc, strip, List.dropWhile_cons, if_pos hcblank, strip]
  have hrestInf : rest <:+: text := by
    refine ⟨text.takeWhile (!isBlank ·) ++ [c], [], ?_⟩
    rw [List.append_nil, List.append_assoc, List.singleton_append, ← hc, hsplit]
  have hnewRest : newline ∉ rest.dropLast :=
    newline_dropLast_of_infix (hrestInf.trans hinf) hnew
  rw [hstrip] at hne
  refine ⟨?_, ?_, ?_⟩
  · obtain ⟨b, hb⟩ : ∃ b, text.head? = some b := by
      cases text with
      | nil => simp at htext
      | cons b text => exact ⟨b, rfl⟩
    rw [hb] at hhead hcomment
    refine name_takeWhile hb hhead (fun h => hcomment (congrArg some h)) hnul fun h => ?_
    apply newline_dropLast_of_infix hinf hnew
    rw [← hsplit, hc, List.dropLast_append_of_ne_nil (by simp)]
    exact List.mem_append_left _ h
  · rw [hstrip]
    exact text_strip hne (fun h => hnul (hrestInf.subset h)) hnewRest
  · have hsub := (strip_sublist rest).length_le
    have htot := congrArg List.length hsplit
    rw [hc, List.length_append, List.length_cons] at htot
    have hle := hinf.length_le
    rw [hstrip]
    change (text.takeWhile (!isBlank ·)).length + 1 + (strip rest).length ≤ 1023
    omega

theorem wellFormed_of_mem {content : List Byte} {d : List Byte × List Byte}
    (hd : d ∈ (buffers content).filterMap lineDirective) (hne : d.2 ≠ []) : WellFormed d := by
  obtain ⟨piece, hpiece, hline⟩ := List.mem_filterMap.mp hd
  exact wellFormed_of_lineDirective (length_le_of_mem_fgetsAll hpiece) (newline_fgetsAll hpiece)
    hline hne

end Reading

/-- A directive as a line of a file. -/
def writtenLine (d : List Byte × List Byte) : List Byte := d.1 ++ 32 :: d.2 ++ [newline]

def written (ds : List (List Byte × List Byte)) : List Byte := ds.flatMap writtenLine

section Writing

variable {d : List Byte × List Byte}

theorem stripRight_append_trailing (s : List Byte) {back : List Byte}
    (hback : back.all isTrailing) : stripRight (s ++ back) = stripRight s := by
  induction back using List.reverseRecOn with
  | nil => rw [List.append_nil]
  | append_singleton back b ih =>
    simp only [List.all_append, List.all_cons, List.all_nil, Bool.and_true,
      Bool.and_eq_true] at hback
    rw [← List.append_assoc, stripRight_append_singleton, if_pos hback.2, ih hback.1]

theorem strip_of_text {value back : List Byte} (h : Text value) (hback : back.all isTrailing) :
    strip (32 :: value ++ back) = value := by
  have hdrop : (32 :: value ++ back).dropWhile isBlank = value ++ back := by
    obtain ⟨b, rest, rfl⟩ := List.exists_cons_of_ne_nil h.ne_nil
    have hb : isBlank b = false := h.head b rfl
    have hspace : isBlank 32 = true := by decide
    simp [hb, hspace]
  have hlast : ∀ hne : value ≠ [], ¬isTrailing (value.getLast hne) = true := fun hne => by
    simp [h.last _ (List.getLast_mem_getLast? hne)]
  rw [strip, hdrop, stripRight_append_trailing _ hback]
  exact List.rdropWhile_eq_self_iff.mpr hlast

theorem lineDirective_text (h : WellFormed d) {back : List Byte} (hback : back.all isTrailing)
    (hnul : 0 ∉ back) : lineDirective (d.1 ++ 32 :: d.2 ++ back) = some d := by
  obtain ⟨name, value⟩ := d
  obtain ⟨hname, hvalue, -⟩ := h
  obtain ⟨b, rest, rfl⟩ := List.exists_cons_of_ne_nil hname.ne_nil
  have hb : isBlank b = false := hname.no_blank b List.mem_cons_self
  have hcomment : b ≠ 35 := fun h => hname.head (congrArg some h)
  have hcstr : cstr (b :: rest ++ 32 :: value ++ back) = b :: rest ++ 32 :: value ++ back := by
    rw [cstr, List.takeWhile_eq_self_iff]
    intro c hc
    have hne : c ≠ 0 := by
      rintro rfl
      simp only [List.mem_append, List.mem_cons] at hc
      rcases hc with (hc | hc | hc) | hc
      · exact hname.no_nul (List.mem_cons.mpr hc)
      · exact absurd hc (by decide)
      · exact hvalue.no_nul hc
      · exact hnul hc
    simpa using hne
  have hdrop : (b :: rest ++ 32 :: value ++ back).dropWhile isBlank =
      b :: rest ++ 32 :: value ++ back := by simp [hb]
  have htake : (b :: rest ++ 32 :: value ++ back).takeWhile (!isBlank ·) = b :: rest := by
    rw [List.append_assoc, List.takeWhile_append_of_pos fun a ha => by simp [hname.no_blank a ha]]
    have hspace : isBlank 32 = true := by decide
    simp [hspace]
  have hrest : (b :: rest ++ 32 :: value ++ back).dropWhile (!isBlank ·) =
      32 :: value ++ back := by
    rw [List.append_assoc, List.dropWhile_append_of_pos fun a ha => by simp [hname.no_blank a ha]]
    have hspace : isBlank 32 = true := by decide
    simp [hspace]
  have hlen : 0 < value.length := List.length_pos_iff.mpr hvalue.ne_nil
  rw [lineDirective, hcstr, hdrop, if_neg]
  · rw [htake, hrest, strip_of_text hvalue hback]
  · simp only [List.length_append, List.length_cons, List.cons_append, List.head?_cons, not_or,
      Option.some.injEq]
    exact ⟨by omega, hcomment⟩

theorem wholeLines_writtenLine (d : List Byte × List Byte) : WholeLines (writtenLine d) :=
  Or.inr ⟨d.1 ++ 32 :: d.2, rfl⟩

theorem newline_notMem_text (h : WellFormed d) : newline ∉ d.1 ++ 32 :: d.2 := by
  rw [List.mem_append, List.mem_cons]
  rintro (hname | hspace | hvalue)
  · exact h.name.no_newline hname
  · exact absurd hspace (by decide)
  · exact h.value.no_newline hvalue

/-- A line is one buffer, or its text fills a buffer and the newline is the next one. -/
theorem buffers_writtenLine (h : WellFormed d) :
    buffers (writtenLine d) = [d.1 ++ 32 :: d.2 ++ [newline]] ∨
      buffers (writtenLine d) = [d.1 ++ 32 :: d.2, [newline]] := by
  have hnew := newline_notMem_text h
  have hlen : (d.1 ++ 32 :: d.2).length ≤ 1023 := by
    have hfits := h.fits
    simp only [FitsLine, List.length_append, List.length_cons] at hfits ⊢
    omega
  rcases Nat.lt_or_eq_of_le hlen with hlt | heq
  · left
    rw [buffers, writtenLine, fgetsAll_eq_splitLines le_rfl, splitLines_line hnew]
    rw [splitLines_line hnew]
    intro line hl
    obtain rfl := List.mem_singleton.mp hl
    rw [List.length_append]
    exact hlt
  · right
    exact fgetsAll_full [newline] hnew heq

theorem filterMap_writtenLine (h : WellFormed d) :
    (buffers (writtenLine d)).filterMap lineDirective = [d] := by
  rcases buffers_writtenLine h with hb | hb <;> rw [hb]
  · have hline : lineDirective (d.1 ++ 32 :: d.2 ++ [newline]) = some d :=
      lineDirective_text h (by decide) (by decide)
    rw [List.filterMap_cons, hline]
    rfl
  · have hline : lineDirective (d.1 ++ 32 :: d.2 ++ []) = some d :=
      lineDirective_text h rfl (by simp)
    have hnewline : lineDirective [newline] = none := by decide
    rw [List.append_nil] at hline
    simp [hline, hnewline]

theorem buffers_written_cons (d : List Byte × List Byte) (ds : List (List Byte × List Byte)) :
    buffers (written (d :: ds)) = buffers (writtenLine d) ++ buffers (written ds) :=
  buffers_append (written ds) (wholeLines_writtenLine d)

/-- What is written is read back. -/
theorem filterMap_written {ds : List (List Byte × List Byte)} (h : ∀ d ∈ ds, WellFormed d) :
    (buffers (written ds)).filterMap lineDirective = ds := by
  induction ds with
  | nil => rfl
  | cons d ds ih =>
    rw [buffers_written_cons, List.filterMap_append,
      filterMap_writtenLine (h d List.mem_cons_self),
      ih fun e he => h e (List.mem_cons_of_mem _ he)]
    rfl

end Writing

/-- The lists of directives that a file can carry are those of well-formed directives, and
the file that says them one a line carries them. -/
theorem directives_iff (ds : List (List Byte × List Byte)) :
    ((∃ content, (buffers content).filterMap lineDirective = ds ∧ ∀ d ∈ ds, d.2 ≠ []) ↔
      ∀ d ∈ ds, WellFormed d) ∧
    ((∀ d ∈ ds, WellFormed d) → (buffers (written ds)).filterMap lineDirective = ds) := by
  refine ⟨⟨?_, fun h => ?_⟩, filterMap_written⟩
  · rintro ⟨content, rfl, hne⟩ d hd
    exact wellFormed_of_mem hd (hne d hd)
  · exact ⟨written ds, filterMap_written h, fun d hd => (h d hd).value.ne_nil⟩

theorem directives_iff_port :
    (buffers (written [(ascii "port", ascii "80")])).filterMap lineDirective =
      [(ascii "port", ascii "80")] := by
  have hiff := directives_iff [(ascii "port", ascii "80")]
  exact hiff.2 (hiff.1.mp ⟨ascii "# first\nport 80\n# last\n", by decide, by decide⟩)

end EpollThreads.Config
