import Mathlib.Logic.Function.Basic
import Mathlib.Tactic

/-!
# Handlers that interrupt one another

A thread has the runs of handlers that interrupted it one after the other. None
of them returns, so a run is told by its thread and by how many are below it
there, and only the last one of a thread goes on.
-/

namespace EpollThreads.Foundations

/-- The signal that a run serves, and where it is. -/
structure Activation (ι π : Type*) where
  sig : ι
  pc : π
  deriving DecidableEq, Repr

/-- The runs on each thread, the last one at the end. -/
structure Interrupts (θ ι π : Type*) where
  on : θ → List (Activation ι π)

namespace Interrupts

variable {θ ι π : Type*} {s : Interrupts θ ι π} {t : θ} {sig : ι} {r r' : θ × ℕ} {pc pc' : π}

def none : Interrupts θ ι π := ⟨fun _ => []⟩

/-- The signals whose runs are on a thread. -/
def served (s : Interrupts θ ι π) (t : θ) : List ι := (s.on t).map Activation.sig

def run (s : Interrupts θ ι π) (r : θ × ℕ) : Option π := (s.on r.1)[r.2]?.map Activation.pc

/-- No other run has interrupted this one. -/
def Innermost (s : Interrupts θ ι π) (r : θ × ℕ) : Prop := (s.on r.1).length = r.2 + 1

instance (s : Interrupts θ ι π) (r : θ × ℕ) : Decidable (s.Innermost r) :=
  inferInstanceAs (Decidable ((s.on r.1).length = r.2 + 1))

@[simp] theorem served_none : (none : Interrupts θ ι π).served t = [] := rfl

@[simp] theorem run_none : (none : Interrupts θ ι π).run r = .none := rfl

variable [DecidableEq θ]

def enter (s : Interrupts θ ι π) (t : θ) (sig : ι) (pc : π) : Interrupts θ ι π :=
  ⟨Function.update s.on t (s.on t ++ [⟨sig, pc⟩])⟩

def goOn (s : Interrupts θ ι π) (r : θ × ℕ) (pc : π) : Interrupts θ ι π :=
  ⟨Function.update s.on r.1 ((s.on r.1).modify r.2 fun a => { a with pc := pc })⟩

/-- A run that begins leaves the others where they are. -/
theorem run_enter (h : s.run r = some pc) : (s.enter t sig pc').run r = some pc := by
  unfold run enter at *
  by_cases ht : r.1 = t
  · subst ht
    obtain ⟨a, ha, -⟩ := Option.map_eq_some_iff.mp h
    obtain ⟨hlt, -⟩ := List.getElem?_eq_some_iff.mp ha
    simpa only [Function.update_self, List.getElem?_append_left hlt] using h
  · simpa only [Function.update_of_ne ht] using h

theorem run_enter_cases (h : (s.enter t sig pc').run r = some pc) :
    s.run r = some pc ∨ pc = pc' := by
  unfold run enter at *
  by_cases ht : r.1 = t
  · subst ht
    simp only [Function.update_self, List.getElem?_append] at h
    split_ifs at h with hlt
    · exact Or.inl h
    · obtain ⟨a, ha, rfl⟩ := Option.map_eq_some_iff.mp h
      obtain rfl := List.mem_singleton.mp (List.mem_of_getElem? ha)
      exact Or.inr rfl
  · simp only [Function.update_of_ne ht] at h
    exact Or.inl h

theorem run_goOn_self (h : s.run r = some pc) : (s.goOn r pc').run r = some pc' := by
  obtain ⟨a, ha, -⟩ := Option.map_eq_some_iff.mp h
  simp [run, goOn, ha]

theorem run_goOn_of_ne (h : r' ≠ r) : (s.goOn r pc).run r' = s.run r' := by
  unfold run goOn
  by_cases ht : r'.1 = r.1
  · have hk : r.2 ≠ r'.2 := fun hk => h (Prod.ext ht hk.symm)
    simp [ht, hk]
  · simp [ht]

/-- What holds of every run, wherever it is, is kept when one goes on. -/
theorem forall_goOn {P : θ × ℕ → π → Prop} (h : ∀ r pc, s.run r = some pc → P r pc)
    (hr : s.run r = some pc) (hnew : P r pc') :
    ∀ r' q, (s.goOn r pc').run r' = some q → P r' q := by
  intro r' q hq
  by_cases hne : r' = r
  · subst hne
    obtain rfl := Option.some.inj ((run_goOn_self hr).symm.trans hq)
    exact hnew
  · exact h r' q (by rwa [run_goOn_of_ne hne] at hq)

/-- So is what a run has behind it, if it keeps that where it goes on. -/
theorem exists_goOn {P : π → Prop} (h : ∃ q, s.run r' = some q ∧ P q) (hr : s.run r = some pc)
    (hnew : P pc → P pc') : ∃ q, (s.goOn r pc').run r' = some q ∧ P q := by
  obtain ⟨q, hq, hP⟩ := h
  by_cases hne : r' = r
  · subst hne
    obtain rfl := Option.some.inj (hr.symm.trans hq)
    exact ⟨pc', run_goOn_self hr, hnew hP⟩
  · exact ⟨q, by rw [run_goOn_of_ne hne, hq], hP⟩

end Interrupts
end EpollThreads.Foundations
