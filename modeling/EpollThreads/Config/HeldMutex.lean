import EpollThreads.Config.LastDirective

/-!
# The log mutex after a load

`myepollLog` keeps `g_LogFileMutex` when it filters a message. The only message
of a load that goes on and can be filtered is the one about an unknown name, so
the mutex is lost with the first unknown name that is read under `warning`.
-/

namespace EpollThreads.Config

open Foundations Logging

/-- An unknown name, read while only warnings are logged. -/
def LosesMutex (g : SERVER) (d : List Byte × List Byte) : Prop :=
  settingOf d.1 = none ∧ MY_NOTICE < g.verbosity

instance (g : SERVER) (d : List Byte × List Byte) : Decidable (LosesMutex g d) :=
  inferInstanceAs (Decidable (_ ∧ _))

namespace Loading

variable {canAppend : List Byte → Bool} {s s' : Loading}

theorem say_next_held {m : Message} (h : s.say m .next = .next s') :
    s.held = false ∧ (s'.held = true ↔ levelBits m.level < s.g.verbosity) := by
  unfold say myepollLog at h
  cases hheld : s.held with
  | true => simp [hheld] at h
  | false =>
    simp only [hheld, Bool.false_eq_true, if_false] at h
    obtain rfl := Outcome.next.inj h
    simp

theorem number_held {g : SERVER} {admitted : Bool} {m : Message}
    (h : s.number g admitted m = .next s') : s'.held = s.held := by
  unfold number at h
  split_ifs at h
  · obtain rfl := Outcome.next.inj h
    rfl
  · exact absurd h say_fail_ne_next

theorem held_of_next {s₁ : Loading} (h : Outcome.next s₁ = .next s') (hs : s₁.held = s.held) :
    s'.held = s.held := by
  rw [← Outcome.next.inj h, hs]

/-- Only an unknown name touches the mutex, and it needs it free. -/
theorem apply_held {name value : List Byte} (h : s.apply canAppend name value = .next s') :
    (s.held = true → settingOf name ≠ none) ∧
      (s'.held = true ↔ s.held = true ∨ LosesMutex s.g (name, value)) := by
  unfold apply at h
  unfold LosesMutex
  cases hk : settingOf name with
  | none =>
    rw [hk] at h
    obtain ⟨hfree, hheld⟩ := say_next_held h
    have hlevel : levelBits (Message.invalidArgument s.line).level = MY_NOTICE := by
      change levelBits MY_NOTICE = MY_NOTICE
      decide
    rw [hheld, hlevel]
    simp [hfree]
  | some k =>
    suffices hsame : s'.held = s.held by simp [hsame]
    rw [hk] at h
    cases k with
    | daemonize =>
      simp only at h
      split_ifs at h
      · exact held_of_next h rfl
      · exact held_of_next h rfl
      · exact absurd h say_fail_ne_next
    | pidfile | bind => exact held_of_next h rfl
    | port | timeout | maxclients | maxthreads => exact number_held h
    | loglevel =>
      cases hv : verbosityOf value with
      | some verbosity =>
        simp only [hv] at h
        exact held_of_next h rfl
      | none =>
        simp only [hv] at h
        exact absurd h say_fail_ne_next
    | logfile =>
      simp only at h
      split_ifs at h
      · exact held_of_next h rfl
      · exact held_of_next h rfl
      · exact absurd h say_fail_ne_next

theorem step_held {buffer : List Byte} (h : s.step canAppend buffer = .next s') :
    (s.held = true → ∀ d ∈ lineDirective buffer, settingOf d.1 ≠ none) ∧
      (s'.held = true ↔ s.held = true ∨ ∃ d ∈ lineDirective buffer, LosesMutex s.g d) := by
  unfold step at h
  rw [parseLine_eq] at h
  cases hd : lineDirective buffer with
  | none =>
    simp only [hd] at h
    obtain rfl := Outcome.next.inj h
    simp
  | some d =>
    simp only [hd] at h
    by_cases hv : d.2 = []
    · simp only [hv, if_true] at h
      exact absurd h say_fail_ne_next
    · simp only [hv, if_false] at h
      obtain ⟨hknown, hheld⟩ := apply_held h
      refine ⟨?_, by simpa using hheld⟩
      rintro hs d ⟨⟩
      exact hknown hs

theorem run_held {buffers : List (List Byte)} (h : s.run canAppend buffers = .next s') :
    (s.held = true → ∀ d ∈ buffers.filterMap lineDirective, settingOf d.1 ≠ none) ∧
      (s'.held = true ↔ s.held = true ∨ ∃ front d back,
        buffers.filterMap lineDirective = front ++ d :: back ∧
          LosesMutex (front.foldl assign s.g) d) := by
  induction buffers generalizing s with
  | nil =>
    obtain rfl := Outcome.next.inj h
    simp
  | cons buffer buffers ih =>
    rw [run] at h
    split at h
    · rename_i s₁ hs
      obtain ⟨hg, -⟩ := step_next hs
      obtain ⟨hknown, hheld⟩ := step_held hs
      obtain ⟨hknown', hheld'⟩ := ih h
      cases hd : lineDirective buffer with
      | none =>
        rw [hd] at hg hheld
        have hfirst : s₁.held = s.held := by
          rw [Bool.eq_iff_iff, hheld]
          simp
        rw [Option.elim_none] at hg
        rw [List.filterMap_cons, hd, ← hfirst, ← hg]
        exact ⟨hknown', hheld'⟩
      | some d =>
        rw [hd] at hg hheld hknown
        rw [Option.elim_some] at hg
        simp only [List.filterMap_cons, hd]
        constructor
        · intro hs e he
          rcases List.mem_cons.mp he with rfl | he
          · exact hknown hs e rfl
          · exact hknown' (hheld.mpr (Or.inl hs)) e he
        · rw [hheld', hheld, hg, or_assoc]
          apply or_congr_right
          constructor
          · rintro (⟨e, he, hlost⟩ | ⟨front, e, back, heq, hlost⟩)
            · obtain rfl := Option.mem_some.mp he
              exact ⟨[], d, _, rfl, hlost⟩
            · exact ⟨d :: front, e, back, by rw [heq]; rfl, hlost⟩
          · rintro ⟨front, e, back, heq, hlost⟩
            cases front with
            | nil =>
              obtain ⟨rfl, -⟩ := List.cons.inj heq
              exact Or.inl ⟨d, rfl, hlost⟩
            | cons c front =>
              obtain ⟨rfl, htail⟩ := List.cons.inj heq
              exact Or.inr ⟨front, e, back, htail, hlost⟩
    · rename_i hne
      exact absurd h (hne s')

end Loading

/-- Among the directives, one loses the mutex. -/
def LostMutex (ds : List (List Byte × List Byte)) : Prop :=
  ∃ front d back, ds = front ++ d :: back ∧ LosesMutex (loaded front) d

/-- The file tells whether the mutex is free when the server starts. -/
theorem held_iff_lostMutex {files : Files} {path content : List Byte} {s : Loading}
    (hread : files.read path = some content)
    (h : loadServerConfig files (some path) initServerConfig = .returned 0 s) :
    s.held = true ↔ LostMutex ((buffers content).filterMap lineDirective) := by
  rw [(Loading.run_held (run_of_returned hread h)).2]
  simp only [Bool.false_eq_true, false_or, LostMutex, foldl_assign]

end EpollThreads.Config
