import Mathlib.Data.Nat.Digits.Lemmas
import EpollThreads.Foundations.CString

/-!
# Decimal numerals

What a numeral denotes, as an unbounded number, and what `strtol` makes of a
string: it takes the numeral at the front of the string and forgets the rest.
-/

namespace EpollThreads.Foundations

/-- The number that digits denote. -/
def decimal (digits : List Byte) : ℕ :=
  Nat.ofDigits 10 (digits.reverse.map fun b => b.toNat - 48)

/-- One digit or more and nothing else. -/
def IsDigits (s : List Byte) : Prop := s ≠ [] ∧ s.all isdigit = true

instance (s : List Byte) : Decidable (IsDigits s) := inferInstanceAs (Decidable (_ ∧ _))

/-- The number that an optionally signed decimal numeral denotes. -/
def numeralValue : List Byte → Option ℤ
  | 45 :: digits => if IsDigits digits then some (-decimal digits) else none
  | 43 :: digits => if IsDigits digits then some (decimal digits) else none
  | digits => if IsDigits digits then some (decimal digits) else none

/-- The number at the front of a string, after white space; without a digit it is 0. -/
def leadingNumber (s : List Byte) : ℤ :=
  match s.dropWhile isspace with
  | 45 :: digits => -decimal (digits.takeWhile isdigit)
  | 43 :: digits => decimal (digits.takeWhile isdigit)
  | digits => decimal (digits.takeWhile isdigit)

@[simp] theorem decimal_nil : decimal [] = 0 := rfl

theorem decimal_append_singleton (digits : List Byte) (b : Byte) :
    decimal (digits ++ [b]) = 10 * decimal digits + (b.toNat - 48) := by
  simp only [decimal, List.reverse_append, List.reverse_singleton, List.singleton_append,
    List.map_cons, Nat.ofDigits_cons]
  ring

/-- Reading digits from the left computes what they denote. -/
theorem numeral_eq (s : List Byte) : numeral s = decimal (s.takeWhile isdigit) := by
  unfold numeral
  induction s.takeWhile isdigit using List.reverseRecOn with
  | nil => rfl
  | append_singleton digits b ih =>
    rw [List.foldl_append, ih, decimal_append_singleton]
    rfl

theorem strtol_eq (s : List Byte) :
    strtol s = max (-2 ^ 63) (min (leadingNumber s) (2 ^ 63 - 1)) := by
  have hnumeral : numeral = fun digits => decimal (digits.takeWhile isdigit) := funext numeral_eq
  unfold strtol
  exact hnumeral ▸ rfl

theorem IsDigits.takeWhile {s : List Byte} (h : IsDigits s) : s.takeWhile isdigit = s :=
  List.takeWhile_eq_self_iff.mpr (List.all_eq_true.mp h.2)

theorem isspace_of_isdigit {b : Byte} (h : isdigit b = true) : isspace b = false := by
  simp only [isdigit, isspace, Bool.and_eq_true, decide_eq_true_eq] at h ⊢
  have hlow : (48 : ℕ) ≤ b.toNat := h.1
  simp only [Bool.or_eq_false_iff, Bool.and_eq_false_iff, beq_eq_false_iff_ne, ne_eq,
    decide_eq_false_iff_not, ← UInt8.toNat_inj, UInt8.le_iff_toNat_le]
  simp only [UInt8.reduceToNat]
  omega

theorem IsDigits.dropWhile_isspace {s : List Byte} (h : IsDigits s) : s.dropWhile isspace = s := by
  obtain ⟨hne, hall⟩ := h
  cases s with
  | nil => exact absurd rfl hne
  | cons b s =>
    simp only [List.all_cons, Bool.and_eq_true] at hall
    simp [isspace_of_isdigit hall.1]

/-- A numeral is its own front. -/
theorem leadingNumber_of_numeralValue {s : List Byte} {n : ℤ} (h : numeralValue s = some n) :
    leadingNumber s = n := by
  unfold numeralValue at h
  split at h <;> split_ifs at h with hd <;> obtain rfl := Option.some.inj h
  · rename_i digits
    have hdrop : (45 :: digits : List Byte).dropWhile isspace = 45 :: digits := rfl
    simp only [leadingNumber, hdrop, hd.takeWhile]
  · rename_i digits
    have hdrop : (43 :: digits : List Byte).dropWhile isspace = 43 :: digits := rfl
    simp only [leadingNumber, hdrop, hd.takeWhile]
  · rename_i digits hminus hplus
    unfold leadingNumber
    rw [hd.dropWhile_isspace]
    split
    · rename_i tail
      exact (hminus tail rfl).elim
    · rename_i tail
      exact (hplus tail rfl).elim
    · rw [hd.takeWhile]

/-- The numeral that `printf("%u")` writes. -/
def printed (n : ℕ) : List Byte :=
  if n = 0 then [48] else (Nat.digits 10 n).reverse.map fun d => UInt8.ofNat (d + 48)

theorem toNat_digit {d : ℕ} (h : d < 10) : (UInt8.ofNat (d + 48)).toNat = d + 48 :=
  UInt8.toNat_ofNat_of_lt' (by change d + 48 < 256; omega)

theorem isDigits_printed (n : ℕ) : IsDigits (printed n) := by
  unfold printed
  split_ifs with h
  · decide
  · refine ⟨by simpa using Nat.digits_ne_nil_iff_ne_zero.mpr h, ?_⟩
    simp only [List.all_map, List.all_reverse, List.all_eq_true, Function.comp_apply]
    intro d hd
    have hlt : d < 10 := Nat.digits_lt_base (by decide) hd
    simp only [isdigit, Bool.and_eq_true, decide_eq_true_eq, UInt8.le_iff_toNat_le,
      toNat_digit hlt, UInt8.reduceToNat]
    omega

theorem decimal_printed (n : ℕ) : decimal (printed n) = n := by
  unfold printed
  split_ifs with h
  · rw [h]
    rfl
  · have hdigits : (Nat.digits 10 n).map (fun d => (UInt8.ofNat (d + 48)).toNat - 48) =
        Nat.digits 10 n := by
      refine (List.map_congr_left fun d hd => ?_).trans (List.map_id _)
      rw [toNat_digit (Nat.digits_lt_base (by decide) hd), Nat.add_sub_cancel, id]
    rw [decimal, ← List.map_reverse, List.reverse_reverse, List.map_map]
    exact (congrArg (Nat.ofDigits 10) hdigits).trans (Nat.ofDigits_digits 10 n)

theorem numeralValue_printed (n : ℕ) : numeralValue (printed n) = some (n : ℤ) := by
  have hd := isDigits_printed n
  have hn := decimal_printed n
  unfold numeralValue
  split
  · rename_i digits he
    simp [he, IsDigits, isdigit] at hd
  · rename_i digits he
    simp [he, IsDigits, isdigit] at hd
  · rw [if_pos hd, hn]

theorem length_printed_le {n k : ℕ} (hk : 0 < k) (h : n < 10 ^ k) : (printed n).length ≤ k := by
  unfold printed
  split_ifs
  · exact hk
  · simpa using (Nat.digits_length_le_iff (by decide) n).mpr h

example : numeralValue (ascii "-12") = some (-12) ∧ leadingNumber (ascii " 80x") = 80 := by decide

end EpollThreads.Foundations
