import Mathlib.Data.Int.Order.Basic
import Mathlib.Data.List.Basic
import Mathlib.Data.List.TakeWhile
import Mathlib.Tactic

/-!
# Bytes and C strings

Memory contents are lists of bytes. A buffer holds the string in front of its
first NUL. The library calls here are those of the C locale; `fgets` cuts a
stream into pieces that end with a newline, with the stream or with the buffer.
-/

namespace EpollThreads.Foundations

abbrev Byte := UInt8

/-- The bytes of a string constant. -/
def ascii (s : String) : List Byte := s.toList.map fun c => UInt8.ofNat c.toNat

/-- A value stored in a 32-bit `int`. -/
def toInt (x : ℤ) : ℤ := x.bmod (2 ^ 32)

/-- The string a buffer holds. -/
def cstr (buffer : List Byte) : List Byte := buffer.takeWhile (· ≠ 0)

/-- Reading a string from the start of a buffer stays inside it exactly when a NUL does. -/
theorem length_cstr_append_lt {buffer after : List Byte} :
    (cstr (buffer ++ after)).length < buffer.length ↔ 0 ∈ buffer := by
  rw [cstr, List.takeWhile_append]
  split_ifs with h
  · have hall : ∀ b ∈ buffer, b ≠ 0 := by
      have heq := (List.takeWhile_prefix (p := fun b : Byte => b ≠ 0) (l := buffer)).eq_of_length h
      simpa using List.takeWhile_eq_self_iff.mp heq
    have hno : (0 : Byte) ∉ buffer := fun hmem => hall 0 hmem rfl
    simp [hno]
  · have hle := (List.takeWhile_prefix (p := fun b : Byte => b ≠ 0) (l := buffer)).length_le
    refine ⟨fun _ => ?_, fun _ => lt_of_le_of_ne hle h⟩
    by_contra hno
    have heq : buffer.takeWhile (fun b : Byte => b ≠ 0) = buffer := by
      rw [List.takeWhile_eq_self_iff]
      intro b hb
      simpa using fun hz : b = 0 => hno (hz ▸ hb)
    exact h (by rw [heq])

def newline : Byte := 10

/-- `c == ' ' || c == '\t'` -/
def isBlank (b : Byte) : Bool := b == 32 || b == 9

def isspace (b : Byte) : Bool := b == 32 || (9 ≤ b && b ≤ 13)

def isdigit (b : Byte) : Bool := 48 ≤ b && b ≤ 57

def tolower (b : Byte) : Byte := if 65 ≤ b ∧ b ≤ 90 then b + 32 else b

/-- `0 == strcasecmp(s, t)` -/
def sameText (s t : List Byte) : Bool := s.map tolower == t.map tolower

/-- The numeral at the front of `digits`. -/
def numeral (digits : List Byte) : ℕ :=
  (digits.takeWhile isdigit).foldl (fun n b => 10 * n + (b.toNat - 48)) 0

/-- `strtol(s, NULL, 10)` with a 64-bit `long`: out of range it saturates. -/
def strtol (s : List Byte) : ℤ :=
  let value : ℤ := match s.dropWhile isspace with
    | 45 :: digits => -numeral digits
    | 43 :: digits => numeral digits
    | digits => numeral digits
  max (-2 ^ 63) (min value (2 ^ 63 - 1))

/-- `atoi(s)`, which is `(int) strtol(s, NULL, 10)`. -/
def atoi (s : List Byte) : ℤ := toInt (strtol s)

/-- The piece one `fgets` call delivers when `room` bytes fit, and what is left of the stream. -/
def takeLine : ℕ → List Byte → List Byte × List Byte
  | 0, stream => ([], stream)
  | _ + 1, [] => ([], [])
  | room + 1, b :: stream =>
      if b = newline then ([b], stream)
      else (b :: (takeLine room stream).1, (takeLine room stream).2)

/-- The pieces that `fgets(buffer, size, fp)` delivers until the stream ends; each takes
at least one byte, so the length of the stream bounds their number. -/
def fgetsAll (size : ℕ) : ℕ → List Byte → List (List Byte)
  | 0, _ => []
  | _ + 1, [] => []
  | fuel + 1, b :: stream =>
      (takeLine (size - 1) (b :: stream)).1 ::
        fgetsAll size fuel (takeLine (size - 1) (b :: stream)).2

/-- The lines of a text, each with the newline that ends it. -/
def splitLines : List Byte → List (List Byte)
  | [] => []
  | b :: text =>
      if b = newline then [b] :: splitLines text
      else match splitLines text with
        | [] => [[b]]
        | line :: lines => (b :: line) :: lines

theorem splitLines_eq_nil {text : List Byte} : splitLines text = [] ↔ text = [] := by
  cases text with
  | nil => simp [splitLines]
  | cons b text =>
    simp only [splitLines, reduceCtorEq, iff_false]
    split_ifs
    · simp
    · split <;> simp

theorem splitLines_append {text : List Byte} (rest : List Byte) (h : newline ∉ text) :
    splitLines (text ++ newline :: rest) = (text ++ [newline]) :: splitLines rest := by
  induction text with
  | nil => rfl
  | cons b text ih =>
    simp only [List.mem_cons, not_or] at h
    simp only [List.cons_append, splitLines, if_neg (Ne.symm h.1), ih h.2]

theorem splitLines_flatten {lines : List (List Byte)}
    (h : ∀ line ∈ lines, ∃ text, newline ∉ text ∧ line = text ++ [newline]) :
    splitLines lines.flatten = lines := by
  induction lines with
  | nil => rfl
  | cons line lines ih =>
    obtain ⟨text, htext, rfl⟩ := h line List.mem_cons_self
    rw [List.flatten_cons, List.append_assoc, List.singleton_append, splitLines_append _ htext,
      ih fun l hl => h l (List.mem_cons_of_mem _ hl)]

theorem takeLine_splitLines {room : ℕ} {text line : List Byte} {lines : List (List Byte)}
    (h : splitLines text = line :: lines) (hlen : line.length ≤ room) :
    (takeLine room text).1 = line ∧ splitLines (takeLine room text).2 = lines ∧
      (takeLine room text).2.length < text.length := by
  induction text generalizing room line lines with
  | nil => simp [splitLines] at h
  | cons b text ih =>
    cases room with
    | zero =>
      have hline : line = [] := List.length_eq_zero_iff.mp (Nat.le_zero.mp hlen)
      subst hline
      simp only [splitLines] at h
      split_ifs at h
      · simp at h
      · split at h <;> simp at h
    | succ room =>
      simp only [splitLines] at h
      split_ifs at h with hb
      · obtain ⟨rfl, rfl⟩ := List.cons.inj h
        simp [takeLine, hb]
      · split at h
        · rename_i hnil
          obtain ⟨rfl, rfl⟩ := List.cons.inj h
          rw [splitLines_eq_nil] at hnil
          subst hnil
          cases room <;> simp [takeLine, hb, splitLines]
        · rename_i line' lines' hsplit
          obtain ⟨rfl, rfl⟩ := List.cons.inj h
          obtain ⟨h1, h2, h3⟩ := ih hsplit (Nat.le_of_succ_le_succ hlen)
          simp only [takeLine, if_neg hb, h1, h2, List.length_cons, true_and]
          omega

theorem fgetsAll_eq_splitLines {size fuel : ℕ} {text : List Byte} (hfuel : text.length ≤ fuel)
    (h : ∀ line ∈ splitLines text, line.length ≤ size - 1) :
    fgetsAll size fuel text = splitLines text := by
  induction fuel generalizing text with
  | zero =>
    obtain rfl := List.length_eq_zero_iff.mp (Nat.le_zero.mp hfuel)
    rfl
  | succ fuel ih =>
    cases text with
    | nil => rfl
    | cons b text =>
      cases hs : splitLines (b :: text) with
      | nil => simp [splitLines_eq_nil] at hs
      | cons line lines =>
        rw [hs] at h
        obtain ⟨h1, h2, h3⟩ := takeLine_splitLines hs (h line List.mem_cons_self)
        have hrest : fgetsAll size fuel (takeLine (size - 1) (b :: text)).2 = lines := by
          rw [ih (by simp only [List.length_cons] at hfuel h3; omega), h2]
          rw [h2]
          exact fun l hl => h l (List.mem_cons_of_mem _ hl)
        simp only [fgetsAll, h1, hrest]

/-- Nothing, or a text whose last byte is a newline. -/
def WholeLines (text : List Byte) : Prop := text = [] ∨ ∃ front, text = front ++ [newline]

theorem WholeLines.tail {b : Byte} {text : List Byte} (h : WholeLines (b :: text)) :
    WholeLines text := by
  obtain h | ⟨front, h⟩ := h
  · cases h
  · cases front with
    | nil => exact Or.inl (List.cons.inj h).2
    | cons _ front => exact Or.inr ⟨front, (List.cons.inj h).2⟩

theorem WholeLines.ne_nil {b : Byte} {text : List Byte} (h : WholeLines (b :: text))
    (hb : b ≠ newline) : text ≠ [] := by
  rintro rfl
  obtain h | ⟨front, h⟩ := h
  · cases h
  · cases front with
    | nil => exact hb (List.cons.inj h).1
    | cons _ front => simp at h

theorem takeLine_length_le (room : ℕ) (text : List Byte) :
    (takeLine room text).1.length ≤ room := by
  fun_induction takeLine room text <;> simp_all

theorem takeLine_rest_length_le (room : ℕ) (text : List Byte) :
    (takeLine room text).2.length ≤ text.length := by
  fun_induction takeLine room text <;> simp_all
  omega

theorem takeLine_rest_length_lt (room : ℕ) (b : Byte) (text : List Byte) :
    (takeLine (room + 1) (b :: text)).2.length ≤ text.length := by
  rw [takeLine]
  split_ifs
  · exact le_rfl
  · exact takeLine_rest_length_le room text

/-- No buffer reaches over the end of a line. -/
theorem takeLine_append (room : ℕ) {text : List Byte} (rest : List Byte) (h : WholeLines text)
    (hne : text ≠ []) :
    takeLine room (text ++ rest) = ((takeLine room text).1, (takeLine room text).2 ++ rest) ∧
      WholeLines (takeLine room text).2 := by
  induction text generalizing room with
  | nil => exact absurd rfl hne
  | cons b text ih =>
    cases room with
    | zero => exact ⟨rfl, h⟩
    | succ room =>
      by_cases hb : b = newline
      · simpa [takeLine, hb] using h.tail
      · obtain ⟨heq, hwhole⟩ := ih room h.tail (h.ne_nil hb)
        simpa [takeLine, hb, heq] using hwhole

theorem takeLine_full {text : List Byte} (rest : List Byte) (h : newline ∉ text) :
    takeLine text.length (text ++ rest) = (text, rest) := by
  induction text with
  | nil => cases rest <;> rfl
  | cons b text ih =>
    simp only [List.mem_cons, not_or] at h
    simp only [List.length_cons, List.cons_append, takeLine, if_neg (Ne.symm h.1), ih h.2]

theorem fgetsAll_fuel {room fuel fuel' : ℕ} {text : List Byte} (h : text.length ≤ fuel)
    (h' : text.length ≤ fuel') :
    fgetsAll (room + 2) fuel text = fgetsAll (room + 2) fuel' text := by
  induction fuel generalizing fuel' text with
  | zero =>
    obtain rfl := List.length_eq_zero_iff.mp (Nat.le_zero.mp h)
    cases fuel' <;> rfl
  | succ fuel ih =>
    cases text with
    | nil => cases fuel' <;> rfl
    | cons b text =>
      cases fuel' with
      | zero => simp at h'
      | succ fuel' =>
        have hrest := takeLine_rest_length_lt room b text
        have htail : fgetsAll (room + 2) fuel (takeLine (room + 1) (b :: text)).2 =
            fgetsAll (room + 2) fuel' (takeLine (room + 1) (b :: text)).2 :=
          ih (hrest.trans (Nat.le_of_succ_le_succ h)) (hrest.trans (Nat.le_of_succ_le_succ h'))
        exact congrArg (_ :: ·) htail

/-- Whole lines are read as they would be without what follows them. -/
theorem fgetsAll_append {room fuel : ℕ} {text rest : List Byte} (h : WholeLines text)
    (hfuel : (text ++ rest).length ≤ fuel) :
    fgetsAll (room + 2) fuel (text ++ rest) =
      fgetsAll (room + 2) text.length text ++ fgetsAll (room + 2) rest.length rest := by
  induction fuel generalizing text with
  | zero =>
    obtain ⟨rfl, rfl⟩ := List.append_eq_nil_iff.mp
      (List.length_eq_zero_iff.mp (Nat.le_zero.mp hfuel))
    rfl
  | succ fuel ih =>
    cases text with
    | nil => exact fgetsAll_fuel hfuel le_rfl
    | cons b text =>
      obtain ⟨heq, hwhole⟩ := takeLine_append (room + 1) rest h (by simp)
      have hrest := takeLine_rest_length_lt room b text
      have hstep : fgetsAll (room + 2) (fuel + 1) (b :: text ++ rest) =
          (takeLine (room + 1) (b :: text)).1 ::
            fgetsAll (room + 2) fuel ((takeLine (room + 1) (b :: text)).2 ++ rest) :=
        congrArg (fun q : List Byte × List Byte => q.1 :: fgetsAll (room + 2) fuel q.2) heq
      rw [hstep, ih hwhole (by simp at hfuel ⊢; omega)]
      rw [fgetsAll_fuel le_rfl hrest]
      rfl

/-- A text without a newline that fills the buffer is delivered as it stands. -/
theorem fgetsAll_full {room : ℕ} {text : List Byte} (rest : List Byte) (h : newline ∉ text)
    (hlen : text.length = room + 1) :
    fgetsAll (room + 2) (text ++ rest).length (text ++ rest) =
      text :: fgetsAll (room + 2) rest.length rest := by
  cases text with
  | nil => simp at hlen
  | cons b text =>
    have hfull : takeLine (room + 1) (b :: text ++ rest) = (b :: text, rest) :=
      hlen ▸ takeLine_full rest h
    calc fgetsAll (room + 2) (b :: text ++ rest).length (b :: text ++ rest)
        = (b :: text) :: fgetsAll (room + 2) (text ++ rest).length rest :=
          congrArg (fun q : List Byte × List Byte =>
            q.1 :: fgetsAll (room + 2) (text ++ rest).length q.2) hfull
      _ = (b :: text) :: fgetsAll (room + 2) rest.length rest := by
          rw [fgetsAll_fuel (by simp) le_rfl]

/-- Every buffer is filled up to its size less one. -/
theorem length_le_of_mem_fgetsAll {size fuel : ℕ} {text piece : List Byte}
    (h : piece ∈ fgetsAll size fuel text) : piece.length ≤ size - 1 := by
  induction fuel generalizing text with
  | zero => simp [fgetsAll] at h
  | succ fuel ih =>
    cases text with
    | nil => simp [fgetsAll] at h
    | cons b text =>
      rw [fgetsAll, List.mem_cons] at h
      rcases h with rfl | h
      · exact takeLine_length_le _ _
      · exact ih h

end EpollThreads.Foundations
