import EpollThreads.Config.Directives
import EpollThreads.Foundations.Decimal

/-!
# What the number directives accept

`port`, `timeout`, `maxclients` and `maxthreads` check the `int` that `atoi`
gives them. By then the text behind the number is forgotten, a text without a
number is 0, and a number beyond 32 bits is what is left of it modulo 2^32.
-/

namespace EpollThreads.Config

open Foundations Logging

inductive NumberSetting
  | port
  | timeout
  | maxclients
  | maxthreads
  deriving DecidableEq, Repr

namespace NumberSetting

def setting : NumberSetting → Setting
  | .port => .port
  | .timeout => .timeout
  | .maxclients => .maxclients
  | .maxthreads => .maxthreads

def lowest : NumberSetting → ℤ
  | .port | .timeout => 0
  | .maxclients | .maxthreads => 1

/-- The largest admitted number; where the loader names none it is the largest `int`. -/
def highest : NumberSetting → ℤ
  | .port => 65535
  | .timeout | .maxclients | .maxthreads => 2 ^ 31 - 1

def Admits (k : NumberSetting) (n : ℤ) : Prop := k.lowest ≤ n ∧ n ≤ k.highest

instance (k : NumberSetting) (n : ℤ) : Decidable (k.Admits n) :=
  inferInstanceAs (Decidable (_ ∧ _))

def field : NumberSetting → SERVER → ℤ
  | .port => SERVER.port
  | .timeout => SERVER.maxidletime
  | .maxclients => SERVER.maxclients
  | .maxthreads => SERVER.maxthreads

end NumberSetting

/-- What a number leaves in 32 bits once it is saturated to 64. -/
def residue (n : ℤ) : ℤ := max (-2 ^ 63) (min n (2 ^ 63 - 1)) % 2 ^ 32

/-- The directive is accepted exactly if its argument is a numeral in the admitted range, and
then the field holds the number. -/
def MeansNumber (k : NumberSetting) (value : List Byte) (o : Outcome) : Prop :=
  ((∃ s, o = .next s) ↔ ∃ n, numeralValue value = some n ∧ k.Admits n) ∧
    ∀ s n, o = .next s → numeralValue value = some n → k.field s.g = n

theorem admits_toInt (k : NumberSetting) (n : ℤ) : k.Admits (toInt n) ↔ k.Admits (n % 2 ^ 32) := by
  unfold toInt NumberSetting.Admits
  rw [Int.bmod_def]
  cases k <;> simp only [NumberSetting.lowest, NumberSetting.highest] <;> split_ifs <;> omega

theorem admits_atoi (k : NumberSetting) (value : List Byte) :
    k.Admits (atoi value) ↔ k.Admits (residue (leadingNumber value)) := by
  rw [atoi, strtol_eq, admits_toInt, residue]

theorem atoi_of_admits {k : NumberSetting} {value : List Byte} {n : ℤ}
    (hv : numeralValue value = some n) (hn : k.Admits n) : atoi value = n := by
  have hlow : 0 ≤ n := by
    have hk : 0 ≤ k.lowest := by cases k <;> decide
    exact hk.trans hn.1
  have hhigh : n ≤ 2 ^ 31 - 1 := by
    have hk : k.highest ≤ 2 ^ 31 - 1 := by cases k <;> decide
    exact hn.2.trans hk
  rw [atoi, strtol_eq, leadingNumber_of_numeralValue hv, toInt, Int.bmod_def]
  split_ifs <;> omega

theorem atoi_le (value : List Byte) : atoi value ≤ 2 ^ 31 - 1 := by
  rw [atoi, toInt, Int.bmod_def]
  split_ifs <;> omega

namespace Loading

variable {s : Loading}

theorem number_goes_on {g : SERVER} {admitted : Bool} {m : Message} :
    (∃ s', s.number g admitted m = .next s') ↔ admitted = true := by
  constructor
  · rintro ⟨s', h⟩
    exact (number_next h).1
  · intro h
    exact ⟨{ s with g := g }, by rw [number, if_pos h]⟩

/-- The four branches store the number and go on if it is in range. -/
theorem apply_number (canAppend : List Byte → Bool) (s : Loading) {k : NumberSetting}
    {name : List Byte} (value : List Byte) (hk : settingOf name = some k.setting) :
    ((∃ s', s.apply canAppend name value = .next s') ↔ k.Admits (atoi value)) ∧
      ∀ s', s.apply canAppend name value = .next s' → k.field s'.g = atoi value := by
  have hle := atoi_le value
  constructor
  · cases k <;>
      simp only [apply, hk, NumberSetting.setting, number_goes_on, Bool.and_eq_true,
        decide_eq_true_eq, NumberSetting.Admits, NumberSetting.lowest, NumberSetting.highest] <;>
      omega
  · intro s' h
    cases k <;> simp only [apply, hk, NumberSetting.setting] at h <;>
      simp only [NumberSetting.field, (number_next h).2]

end Loading

/-- A directive means its number exactly if its argument is a numeral in range, or if what is
left of the number at its front is out of range. -/
theorem number_meant_iff {canAppend : List Byte → Bool} {s : Loading} {k : NumberSetting}
    {buffer name value : List Byte} (hline : parseLine buffer = .directive name value)
    (hk : settingOf name = some k.setting) :
    MeansNumber k value (s.step canAppend buffer) ↔
      (∃ n, numeralValue value = some n ∧ k.Admits n) ∨
        ¬k.Admits (residue (leadingNumber value)) := by
  have hstep : s.step canAppend buffer =
      { s with line := s.line + 1 }.apply canAppend name value := by
    rw [Loading.step, hline]
  obtain ⟨haccept, hfield⟩ :=
    Loading.apply_number canAppend { s with line := s.line + 1 } value hk
  rw [hstep, MeansNumber, haccept, ← admits_atoi]
  constructor
  · rintro ⟨hiff, -⟩
    by_cases ha : k.Admits (atoi value)
    · exact Or.inl (hiff.mp ha)
    · exact Or.inr ha
  · rintro (⟨n, hn, hrange⟩ | hout)
    · have hatoi := atoi_of_admits hn hrange
      refine ⟨iff_of_true (hatoi ▸ hrange) ⟨n, hn, hrange⟩, fun s' m hs' hm => ?_⟩
      rw [hfield s' hs', hatoi]
      exact Option.some.inj (hn.symm.trans hm)
    · refine ⟨iff_of_false hout ?_, fun s' m hs' _ => ?_⟩
      · rintro ⟨n, hn, hrange⟩
        exact hout (atoi_of_admits hn hrange ▸ hrange)
      · exact absurd (haccept.mp ⟨s', hs'⟩) hout

theorem number_meant_iff_port :
    MeansNumber .port (ascii "80")
        (Loading.step (fun _ => true) ⟨initServerConfig, false, 0, []⟩ (ascii "port 80\n")) ↔
      (∃ n, numeralValue (ascii "80") = some n ∧ NumberSetting.port.Admits n) ∨
        ¬NumberSetting.port.Admits (residue (leadingNumber (ascii "80"))) :=
  have hline : parseLine (ascii "port 80\n") = .directive (ascii "port") (ascii "80") := by decide
  number_meant_iff hline (by decide)

theorem not_number_meant :
    ¬∀ (canAppend : List Byte → Bool) (s : Loading) (k : NumberSetting)
      (buffer name value : List Byte), parseLine buffer = .directive name value →
        settingOf name = some k.setting → MeansNumber k value (s.step canAppend buffer) := by
  intro h
  have hmeans := h (fun _ => true) ⟨initServerConfig, false, 0, []⟩ .port (ascii "port 80x\n")
    (ascii "port") (ascii "80x") (by decide) (by decide)
  obtain ⟨n, hn, -⟩ := hmeans.1.mp ⟨_, rfl⟩
  exact absurd hn (by simp [show numeralValue (ascii "80x") = none by decide])

end EpollThreads.Config
