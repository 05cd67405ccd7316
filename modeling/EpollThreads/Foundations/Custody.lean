import Mathlib.Algebra.BigOperators.Fin
import Mathlib.Data.Fintype.BigOperators
import Mathlib.Data.Set.Card
import Mathlib.Tactic.Common

/-!
# Custody of resources

A live resource is meant to have exactly one holder at any time. Resources are
taken when they come into being, passed on, and dropped by their holder; a
holder can also lose one, which stays live with nobody to drop it. Exclusive
custody survives every move, complete custody every move but a loss, and what
is lost stays lost.
-/

namespace EpollThreads.Foundations

universe u v

structure Custody (R : Type u) (H : Type v) where
  live : R → Prop
  held : H → R → Prop

namespace Custody

variable {R : Type u} {H : Type v} {k k' : Custody R H}

/-- Held resources are live and have one holder. -/
structure Exclusive (k : Custody R H) : Prop where
  live : ∀ {h r}, k.held h r → k.live r
  unique : ∀ {h h' r}, k.held h r → k.held h' r → h = h'

/-- Every live resource has a holder. -/
def Complete (k : Custody R H) : Prop := ∀ r, k.live r → ∃ h, k.held h r

/-- Live, and out of everybody's hands. -/
def Lost (k : Custody R H) (r : R) : Prop := k.live r ∧ ∀ h, ¬k.held h r

inductive Move (k k' : Custody R H) : Prop
  | keep (live : ∀ r, k'.live r ↔ k.live r) (held : ∀ h r, k'.held h r ↔ k.held h r)
  | take (h₀ : H) (r₀ : R) (fresh : ¬k.live r₀) (live : ∀ r, k'.live r ↔ k.live r ∨ r = r₀)
      (held : ∀ h r, k'.held h r ↔ k.held h r ∨ (h = h₀ ∧ r = r₀))
  | pass (h₀ h₁ : H) (r₀ : R) (owner : k.held h₀ r₀) (live : ∀ r, k'.live r ↔ k.live r)
      (held : ∀ h r, k'.held h r ↔ (k.held h r ∧ r ≠ r₀) ∨ (h = h₁ ∧ r = r₀))
  | drop (h₀ : H) (r₀ : R) (owner : k.held h₀ r₀) (live : ∀ r, k'.live r ↔ k.live r ∧ r ≠ r₀)
      (held : ∀ h r, k'.held h r ↔ k.held h r ∧ r ≠ r₀)

/-- A holder lets go of a resource that stays live. -/
structure Lose (k k' : Custody R H) (r₀ : R) : Prop where
  owner : ∃ h₀, k.held h₀ r₀
  live : ∀ r, k'.live r ↔ k.live r
  held : ∀ h r, k'.held h r ↔ k.held h r ∧ r ≠ r₀

theorem Exclusive.move (hk : Exclusive k) (hm : Move k k') : Exclusive k' := by
  cases hm with
  | keep live held =>
    exact ⟨fun hr => (live _).mpr (hk.live ((held _ _).mp hr)),
      fun hr hr' => hk.unique ((held _ _).mp hr) ((held _ _).mp hr')⟩
  | take h₀ r₀ fresh live held =>
    constructor
    · intro h r hr
      exact (live r).mpr (((held h r).mp hr).imp hk.live And.right)
    · intro h h' r hr hr'
      rcases (held h r).mp hr with hr | ⟨rfl, rfl⟩ <;>
        rcases (held h' r).mp hr' with hr' | ⟨rfl, he⟩
      · exact hk.unique hr hr'
      · exact (fresh (he ▸ hk.live hr)).elim
      · exact (fresh (hk.live hr')).elim
      · rfl
  | pass h₀ h₁ r₀ owner live held =>
    constructor
    · intro h r hr
      rcases (held h r).mp hr with hr | ⟨-, rfl⟩
      · exact (live r).mpr (hk.live hr.1)
      · exact (live r).mpr (hk.live owner)
    · intro h h' r hr hr'
      rcases (held h r).mp hr with hr | ⟨rfl, rfl⟩ <;>
        rcases (held h' r).mp hr' with hr' | ⟨rfl, he⟩
      · exact hk.unique hr.1 hr'.1
      · exact (hr.2 he).elim
      · exact (hr'.2 rfl).elim
      · rfl
  | drop h₀ r₀ owner live held =>
    exact ⟨fun hr => (live _).mpr ⟨hk.live ((held _ _).mp hr).1, ((held _ _).mp hr).2⟩,
      fun hr hr' => hk.unique ((held _ _).mp hr).1 ((held _ _).mp hr').1⟩

theorem Exclusive.lose (hk : Exclusive k) {r₀ : R} (hl : Lose k k' r₀) : Exclusive k' :=
  ⟨fun hr => (hl.live _).mpr (hk.live ((hl.held _ _).mp hr).1),
    fun hr hr' => hk.unique ((hl.held _ _).mp hr).1 ((hl.held _ _).mp hr').1⟩

theorem Complete.move (hk : Complete k) (hm : Move k k') : Complete k' := by
  intro r hr
  cases hm with
  | keep live held =>
    obtain ⟨h, hh⟩ := hk r ((live r).mp hr)
    exact ⟨h, (held h r).mpr hh⟩
  | take h₀ r₀ fresh live held =>
    rcases (live r).mp hr with hr | rfl
    · obtain ⟨h, hh⟩ := hk r hr
      exact ⟨h, (held h r).mpr (Or.inl hh)⟩
    · exact ⟨h₀, (held h₀ r).mpr (Or.inr ⟨rfl, rfl⟩)⟩
  | pass h₀ h₁ r₀ owner live held =>
    by_cases he : r = r₀
    · exact ⟨h₁, (held h₁ r).mpr (Or.inr ⟨rfl, he⟩)⟩
    · obtain ⟨h, hh⟩ := hk r ((live r).mp hr)
      exact ⟨h, (held h r).mpr (Or.inl ⟨hh, he⟩)⟩
  | drop h₀ r₀ owner live held =>
    obtain ⟨hr, he⟩ := (live r).mp hr
    obtain ⟨h, hh⟩ := hk r hr
    exact ⟨h, (held h r).mpr ⟨hh, he⟩⟩

theorem Lose.lost (hk : Exclusive k) {r₀ : R} (hl : Lose k k' r₀) : Lost k' r₀ := by
  obtain ⟨h₀, hh⟩ := hl.owner
  exact ⟨(hl.live r₀).mpr (hk.live hh), fun h hr => ((hl.held h r₀).mp hr).2 rfl⟩

theorem Lost.move {r : R} (hr : Lost k r) (hm : Move k k') : Lost k' r := by
  cases hm with
  | keep live held => exact ⟨(live r).mpr hr.1, fun h hh => hr.2 h ((held h r).mp hh)⟩
  | take h₀ r₀ fresh live held =>
    refine ⟨(live r).mpr (Or.inl hr.1), fun h hh => ?_⟩
    rcases (held h r).mp hh with hh | ⟨-, rfl⟩
    · exact hr.2 h hh
    · exact fresh hr.1
  | pass h₀ h₁ r₀ owner live held =>
    refine ⟨(live r).mpr hr.1, fun h hh => ?_⟩
    rcases (held h r).mp hh with hh | ⟨-, rfl⟩
    · exact hr.2 h hh.1
    · exact hr.2 h₀ owner
  | drop h₀ r₀ owner live held =>
    refine ⟨(live r).mpr ⟨hr.1, ?_⟩, fun h hh => hr.2 h ((held h r).mp hh).1⟩
    rintro rfl
    exact hr.2 h₀ owner

/-- Nothing comes back: a move neither loses nor recovers a resource. -/
theorem Move.lost_iff (hm : Move k k') {r : R} : Lost k' r ↔ Lost k r := by
  refine ⟨?_, fun hr => hr.move hm⟩
  rintro ⟨hlive, hno⟩
  cases hm with
  | keep live held =>
    exact ⟨(live r).mp hlive, fun h hh => hno h ((held h r).mpr hh)⟩
  | take h₀ r₀ fresh live held =>
    have hne : r ≠ r₀ := fun he => hno h₀ ((held h₀ r).mpr (Or.inr ⟨rfl, he⟩))
    exact ⟨((live r).mp hlive).resolve_right hne, fun h hh => hno h ((held h r).mpr (Or.inl hh))⟩
  | pass h₀ h₁ r₀ owner live held =>
    have hne : r ≠ r₀ := fun he => hno h₁ ((held h₁ r).mpr (Or.inr ⟨rfl, he⟩))
    exact ⟨(live r).mp hlive, fun h hh => hno h ((held h r).mpr (Or.inl ⟨hh, hne⟩))⟩
  | drop h₀ r₀ owner live held =>
    obtain ⟨hlive, hne⟩ := (live r).mp hlive
    exact ⟨hlive, fun h hh => hno h ((held h r).mpr ⟨hh, hne⟩)⟩

theorem Lose.lost_iff (hk : Exclusive k) {r r₀ : R} (hl : Lose k k' r₀) :
    Lost k' r ↔ Lost k r ∨ r = r₀ := by
  constructor
  · rintro ⟨hlive, hno⟩
    by_cases he : r = r₀
    · exact Or.inr he
    · exact Or.inl ⟨(hl.live r).mp hlive, fun h hh => hno h ((hl.held h r).mpr ⟨hh, he⟩)⟩
  · rintro (⟨hlive, hno⟩ | rfl)
    · exact ⟨(hl.live r).mpr hlive, fun h hh => hno h ((hl.held h r).mp hh).1⟩
    · exact hl.lost hk

section Counting

open Classical

theorem Move.finite (hm : Move k k') (h : {r | k.live r}.Finite) : {r | k'.live r}.Finite := by
  cases hm with
  | keep live held => exact h.subset fun r hr => (live r).mp hr
  | take h₀ r₀ fresh live held =>
    exact (h.insert r₀).subset fun r hr => ((live r).mp hr).symm
  | pass h₀ h₁ r₀ owner live held => exact h.subset fun r hr => (live r).mp hr
  | drop h₀ r₀ owner live held => exact h.subset fun r hr => ((live r).mp hr).1

/-- One more loss, one more lost resource. -/
theorem Lose.ncard_lost (hk : Exclusive k) (h : {r | k.live r}.Finite) {r₀ : R}
    (hl : Lose k k' r₀) : {r | Lost k' r}.ncard = {r | Lost k r}.ncard + 1 := by
  obtain ⟨h₀, hh⟩ := hl.owner
  have hset : {r | Lost k' r} = insert r₀ {r | Lost k r} := by
    ext r
    rw [Set.mem_insert_iff, or_comm]
    exact hl.lost_iff hk
  have hno : r₀ ∉ {r | Lost k r} := fun hr => hr.2 h₀ hh
  rw [hset, Set.ncard_insert_of_notMem hno (h.subset fun r hr => hr.1)]

/-- The live resources are those of the holders, each counted once, and the lost ones. -/
theorem Exclusive.ncard_live [Fintype H] (hk : Exclusive k) (h : {r | k.live r}.Finite) :
    {r | k.live r}.ncard = ∑ o, {r | k.held o r}.ncard + {r | Lost k r}.ncard := by
  let holder (r : R) : Option H := if ho : ∃ o, k.held o r then some ho.choose else none
  have hsome : ∀ o r, r ∈ h.toFinset ∧ holder r = some o ↔ k.held o r := by
    intro o r
    rw [Set.Finite.mem_toFinset]
    constructor
    · rintro ⟨-, ho⟩
      by_cases hex : ∃ o, k.held o r
      · simp only [holder, dif_pos hex, Option.some.injEq] at ho
        exact ho ▸ hex.choose_spec
      · simp [holder, hex] at ho
    · intro ho
      have hex : ∃ o, k.held o r := ⟨o, ho⟩
      refine ⟨hk.live ho, ?_⟩
      simp only [holder, dif_pos hex, Option.some.injEq]
      exact hk.unique hex.choose_spec ho
  have hnone : ∀ r, r ∈ h.toFinset ∧ holder r = none ↔ Lost k r := by
    intro r
    rw [Set.Finite.mem_toFinset]
    by_cases hex : ∃ o, k.held o r
    · simp [holder, hex, Lost]
    · simp [holder, Lost, not_exists.mp hex]
  have hcard : ∀ (o : Option H) (p : R → Prop), (∀ r, r ∈ h.toFinset ∧ holder r = o ↔ p r) →
      (h.toFinset.filter fun r => holder r = o).card = {r | p r}.ncard := by
    intro o p hp
    rw [← Set.ncard_coe_finset]
    congr 1
    ext r
    rw [Finset.mem_coe, Finset.mem_filter]
    exact hp r
  rw [Set.ncard_eq_toFinset_card _ h,
    Finset.card_eq_sum_card_fiberwise (f := holder) (t := Finset.univ) fun _ _ => Finset.mem_univ _,
    Fintype.sum_option, hcard none _ hnone, Nat.add_comm]
  congr 1
  exact Finset.sum_congr rfl fun o _ => hcard (some o) _ (hsome o)

end Counting
end Custody
end EpollThreads.Foundations
