import EpollThreads.Foundations.CString

/-!
# Strings in a block of memory

A pointer into a block is the list of bytes from there to the end of the block.
The library calls read byte by byte; one that would read or write past the end
of the block has no result.
-/

namespace EpollThreads.Foundations

/-- The memory from a pointer on begins with the string `t` and its NUL. -/
def Holds (s t : List Byte) : Prop := 0 ∉ t ∧ ∃ rest, s = t ++ 0 :: rest

/-- `block[i] = b` -/
def storeByte (block : List Byte) (i : ℕ) (b : Byte) : Option (List Byte) :=
  if i < block.length then some (block.set i b) else none

/-- Writes bytes and a NUL to the start of a block, as `fgets` and `strcpy` do. -/
def storeString (block bytes : List Byte) : Option (List Byte) :=
  if bytes.length < block.length then some (bytes ++ 0 :: block.drop (bytes.length + 1)) else none

def strlen : List Byte → Option ℕ
  | [] => none
  | b :: s => if b = 0 then some 0 else (strlen s).map (· + 1)

/-- `strpbrk`, as an index; `accept` tells the bytes of its second argument. -/
def strpbrk (accept : Byte → Bool) : List Byte → Option (Option ℕ)
  | [] => none
  | b :: s =>
      if b = 0 then some none
      else if accept b then some (some 0)
      else (strpbrk accept s).map (Option.map (· + 1))

/-- `0 == strcasecmp(s, text)`; the comparison ends with the first difference or a NUL. -/
def equalText : List Byte → List Byte → Option Bool
  | [], _ => none
  | b :: _, [] => some (b == 0)
  | b :: s, c :: text => if tolower b = tolower c then equalText s text else some false

/-- The bytes for which `p` holds, and the pointer to the first for which it does not. -/
def readWhile (p : Byte → Bool) : List Byte → Option (List Byte × List Byte)
  | [] => none
  | b :: s => if p b then (readWhile p s).map fun q => (b :: q.1, q.2) else some ([], b :: s)

/-- A number as a `long`, cast to `int`. -/
def narrow (value : ℤ) : ℤ := toInt (max (-2 ^ 63) (min value (2 ^ 63 - 1)))

/-- `atoi`, which stops at the first byte that is no digit. -/
def readInt (s : List Byte) : Option ℤ := do
  let front ← readWhile isspace s
  match front.2 with
  | 45 :: digits => (readWhile isdigit digits).map fun q => narrow (-numeral q.1)
  | 43 :: digits => (readWhile isdigit digits).map fun q => narrow (numeral q.1)
  | digits => (readWhile isdigit digits).map fun q => narrow (numeral q.1)

/-- `strcpy` into an array of `size` bytes, with the string that the array then holds. -/
def strcpy (size : ℕ) (s : List Byte) : Option (List Byte) := do
  let n ← strlen s
  if n < size then some (s.take n) else none

/-- The entry of the first text that equals the string. -/
def firstMatch {α : Type} (s : List Byte) : List (List Byte × α) → Option (Option α)
  | [] => some none
  | entry :: entries => do
      if ← equalText s entry.1 then some (some entry.2) else firstMatch s entries

section Holding

variable {s t : List Byte}

theorem holds_cstr (piece rest : List Byte) : Holds (piece ++ 0 :: rest) (cstr piece) := by
  constructor
  · intro h
    simpa using List.mem_takeWhile_imp h
  · induction piece with
    | nil => exact ⟨rest, rfl⟩
    | cons b piece ih =>
      by_cases hb : b = 0
      · exact ⟨piece ++ 0 :: rest, by simp [cstr, hb]⟩
      · obtain ⟨rest', ih⟩ := ih
        refine ⟨rest', ?_⟩
        have hcons : cstr (b :: piece) = b :: cstr piece := by simp [cstr, hb]
        rw [hcons, List.cons_append, List.cons_append, ← ih]

theorem cstr_eq_self (h : 0 ∉ s) : cstr s = s := by
  rw [cstr, List.takeWhile_eq_self_iff]
  intro b hb
  simpa using fun hz : b = 0 => h (hz ▸ hb)

theorem Holds.cons {b : Byte} (h : Holds s t) (hb : b ≠ 0) : Holds (b :: s) (b :: t) := by
  obtain ⟨hnul, rest, rfl⟩ := h
  exact ⟨by simp [hnul, Ne.symm hb], rest, rfl⟩

/-- Case analysis on a string: it is empty, or its first byte is followed by a string. -/
theorem Holds.cases (h : Holds s t) :
    (t = [] ∧ ∃ rest, s = 0 :: rest) ∨
      ∃ b s' t', s = b :: s' ∧ t = b :: t' ∧ b ≠ 0 ∧ Holds s' t' := by
  obtain ⟨hnul, rest, rfl⟩ := h
  cases t with
  | nil => exact Or.inl ⟨rfl, rest, rfl⟩
  | cons b t =>
    simp only [List.mem_cons, not_or] at hnul
    exact Or.inr ⟨b, t ++ 0 :: rest, t, rfl, rfl, Ne.symm hnul.1, hnul.2, rest, rfl⟩

theorem Holds.length_lt (h : Holds s t) : t.length < s.length := by
  obtain ⟨-, rest, rfl⟩ := h
  simp

theorem Holds.getElem (h : Holds s t) {i : ℕ} (hi : i < t.length) : s[i]? = some t[i] := by
  obtain ⟨-, rest, rfl⟩ := h
  rw [List.getElem?_append_left hi, List.getElem?_eq_getElem hi]

theorem Holds.drop (h : Holds s t) {i : ℕ} (hi : i ≤ t.length) : Holds (s.drop i) (t.drop i) := by
  obtain ⟨hnul, rest, rfl⟩ := h
  refine ⟨fun hmem => hnul (List.mem_of_mem_drop hmem), rest, ?_⟩
  rw [List.drop_append_of_le_length hi]

/-- A NUL written into a string cuts it. -/
theorem Holds.cut (h : Holds s t) {i : ℕ} (hi : i ≤ t.length) : Holds (s.set i 0) (t.take i) := by
  obtain ⟨hnul, rest, rfl⟩ := h
  refine ⟨fun hmem => hnul (List.mem_of_mem_take hmem), (t ++ 0 :: rest).drop (i + 1), ?_⟩
  have hlt : i < (t ++ 0 :: rest).length := by simp; omega
  rw [List.set_eq_take_append_cons_drop, if_pos hlt, List.take_append_of_le_length hi]

theorem Holds.set (h : Holds s t) {i : ℕ} {b : Byte} (hi : t.length < i) : Holds (s.set i b) t := by
  obtain ⟨hnul, rest, rfl⟩ := h
  refine ⟨hnul, rest.set (i - t.length - 1) b, ?_⟩
  obtain ⟨j, rfl⟩ := Nat.exists_eq_add_of_lt hi
  rw [List.set_append_right _ _ (by omega)]
  have hj : t.length + j + 1 - t.length = j + 1 := by omega
  rw [hj, List.set_cons_succ]
  rfl

section Offsets

variable {block : List Byte} {p i j : ℕ} {b : Byte}

theorem Holds.add_lt (h : Holds (block.drop p) t) (hi : i ≤ t.length) : p + i < block.length := by
  have hlt := h.length_lt
  rw [List.length_drop] at hlt
  omega

theorem Holds.drop_add (h : Holds (block.drop p) t) (hi : i ≤ t.length) :
    Holds (block.drop (p + i)) (t.drop i) := by
  rw [← List.drop_drop]
  exact h.drop hi

theorem Holds.cut_add (h : Holds (block.drop p) t) (hi : i ≤ t.length) :
    Holds ((block.set (p + i) 0).drop p) (t.take i) := by
  rw [List.drop_set, if_neg (by omega), Nat.add_sub_cancel_left]
  exact h.cut hi

theorem Holds.set_before (h : Holds (block.drop p) t) (hj : j < p) :
    Holds ((block.set j b).drop p) t := by
  rwa [List.drop_set, if_pos hj]

theorem Holds.set_behind (h : Holds (block.drop p) t) (hj : p + t.length < j) :
    Holds ((block.set j b).drop p) t := by
  rw [List.drop_set, if_neg (by omega)]
  exact h.set (by omega)

end Offsets
end Holding

section Calls

variable {s t : List Byte}

theorem storeString_eq {block bytes : List Byte} (h : bytes.length < block.length) :
    storeString block bytes = some (bytes ++ 0 :: block.drop (bytes.length + 1)) := if_pos h

theorem storeByte_eq {block : List Byte} {i : ℕ} {b : Byte} (h : i < block.length) :
    storeByte block i b = some (block.set i b) := if_pos h

theorem strlen_eq (h : Holds s t) : strlen s = some t.length := by
  induction s generalizing t with
  | nil =>
    obtain ⟨-, rest, h⟩ := h
    simp at h
  | cons b s ih =>
    rcases h.cases with ⟨rfl, rest, hs⟩ | ⟨c, s', t', hs, rfl, hc, h'⟩
    · obtain ⟨rfl, rfl⟩ := List.cons.inj hs
      rfl
    · obtain ⟨rfl, rfl⟩ := List.cons.inj hs
      rw [strlen, if_neg hc, ih h']
      rfl

theorem strpbrk_eq (accept : Byte → Bool) (h : Holds s t) :
    strpbrk accept s = some (t.findIdx? accept) := by
  induction s generalizing t with
  | nil =>
    obtain ⟨-, rest, h⟩ := h
    simp at h
  | cons b s ih =>
    rcases h.cases with ⟨rfl, rest, hs⟩ | ⟨c, s', t', hs, rfl, hc, h'⟩
    · obtain ⟨rfl, rfl⟩ := List.cons.inj hs
      rfl
    · obtain ⟨rfl, rfl⟩ := List.cons.inj hs
      rw [strpbrk, if_neg hc, ih h', List.findIdx?_cons]
      cases accept b <;> rfl

theorem tolower_eq_zero {b : Byte} : tolower b = 0 ↔ b = 0 := by
  unfold tolower
  split_ifs with h
  · have hlow : (65 : ℕ) ≤ b.toNat := h.1
    have hhigh : b.toNat ≤ (90 : ℕ) := h.2
    simp only [← UInt8.toNat_inj, UInt8.toNat_add, UInt8.reduceToNat]
    omega
  · rfl

theorem equalText_eq {text : List Byte} (h : Holds s t) (htext : 0 ∉ text) :
    equalText s text = some (sameText t text) := by
  induction text generalizing s t with
  | nil =>
    rcases h.cases with ⟨rfl, rest, rfl⟩ | ⟨b, s', t', rfl, rfl, hb, -⟩
    · rfl
    · simp [equalText, sameText, hb]
  | cons c text ih =>
    simp only [List.mem_cons, not_or] at htext
    rcases h.cases with ⟨rfl, rest, rfl⟩ | ⟨b, s', t', rfl, rfl, hb, h'⟩
    · have hc : tolower 0 ≠ tolower c := by
        intro heq
        exact htext.1 (tolower_eq_zero.mp (heq.symm.trans rfl)).symm
      simp [equalText, sameText, hc]
    · rw [equalText, ih h' htext.2]
      by_cases heq : tolower b = tolower c <;> simp [sameText, heq]

theorem readWhile_eq {p : Byte → Bool} (hp : p 0 = false) (h : Holds s t) :
    readWhile p s = some (t.takeWhile p, s.drop (t.takeWhile p).length) := by
  induction s generalizing t with
  | nil =>
    obtain ⟨-, rest, h⟩ := h
    simp at h
  | cons b s ih =>
    rcases h.cases with ⟨rfl, rest, hs⟩ | ⟨c, s', t', hs, rfl, hc, h'⟩
    · obtain ⟨rfl, rfl⟩ := List.cons.inj hs
      simp [readWhile, hp]
    · obtain ⟨rfl, rfl⟩ := List.cons.inj hs
      rw [readWhile, ih h']
      cases hb : p b <;> simp [hb]

theorem strcpy_eq {size : ℕ} (h : Holds s t) (hlen : t.length < size) :
    strcpy size s = some t := by
  have hn := strlen_eq h
  obtain ⟨-, rest, rfl⟩ := h
  simp [strcpy, hn, hlen]

theorem firstMatch_eq {α : Type} {entries : List (List Byte × α)} (h : Holds s t)
    (htexts : ∀ entry ∈ entries, 0 ∉ entry.1) :
    firstMatch s entries = some ((entries.find? fun entry => sameText t entry.1).map Prod.snd) := by
  induction entries with
  | nil => rfl
  | cons entry entries ih =>
    have htext := htexts entry List.mem_cons_self
    rw [firstMatch, equalText_eq h htext, List.find?_cons]
    have hrest := ih fun e he => htexts e (List.mem_cons_of_mem _ he)
    cases hsame : sameText t entry.1 <;> simp [hrest]

end Calls

section Numbers

variable {s t : List Byte}

theorem numeral_takeWhile (digits : List Byte) :
    numeral (digits.takeWhile isdigit) = numeral digits := by
  rw [numeral, numeral, List.takeWhile_takeWhile]
  simp

theorem readDigits_eq (f : ℤ → ℤ) (h : Holds s t) :
    ((readWhile isdigit s).map fun q => narrow (f (numeral q.1))) =
      some (narrow (f (numeral t))) := by
  rw [readWhile_eq rfl h, Option.map_some, numeral_takeWhile]

/-- A byte that is no sign leads to the last branch. -/
theorem match_unsigned {α : Type} {b : Byte} (hminus : b ≠ 45) (hplus : b ≠ 43)
    (f g k : List Byte → α) (s : List Byte) :
    (match b :: s with
      | 45 :: digits => f digits
      | 43 :: digits => g digits
      | digits => k digits) = k (b :: s) := by
  split
  · rename_i heq
    exact (hminus (List.cons.inj heq).1).elim
  · rename_i heq
    exact (hplus (List.cons.inj heq).1).elim
  · rfl

theorem readInt_eq (h : Holds s t) : readInt s = some (atoi t) := by
  have hspace := readWhile_eq (p := isspace) rfl h
  have hle : (t.takeWhile isspace).length ≤ t.length := (List.takeWhile_prefix _).length_le
  have hfront : Holds (s.drop (t.takeWhile isspace).length) (t.dropWhile isspace) := by
    have hsplit := congrArg (List.drop (t.takeWhile isspace).length)
      (List.takeWhile_append_dropWhile (p := isspace) (l := t))
    rw [List.drop_left] at hsplit
    rw [hsplit]
    exact h.drop hle
  rw [readInt, hspace]
  simp only [Option.bind_eq_bind, Option.bind_some, atoi, strtol]
  generalize s.drop (t.takeWhile isspace).length = s' at hfront
  generalize t.dropWhile isspace = t' at hfront
  rcases hfront.cases with ⟨rfl, rest, rfl⟩ | ⟨b, s₁, t₁, rfl, rfl, hb, h₁⟩
  · rfl
  · by_cases hminus : b = 45
    · subst hminus
      exact readDigits_eq (fun n => -n) h₁
    · by_cases hplus : b = 43
      · subst hplus
        exact readDigits_eq id h₁
      · have hread := match_unsigned hminus hplus
          (fun digits => (readWhile isdigit digits).map fun q => narrow (-numeral q.1))
          (fun digits => (readWhile isdigit digits).map fun q => narrow (numeral q.1))
          (fun digits => (readWhile isdigit digits).map fun q => narrow (numeral q.1)) s₁
        have hvalue := match_unsigned hminus hplus (fun digits => -(numeral digits : ℤ))
          (fun digits => (numeral digits : ℤ)) (fun digits => (numeral digits : ℤ)) t₁
        exact (hread.trans (readDigits_eq id hfront)).trans
          (congrArg (fun n => some (narrow n)) hvalue.symm)

end Numbers

end EpollThreads.Foundations
