import EpollThreads.Config.Range
import EpollThreads.Dispatch.AssignTask

/-!
# Pool sizes that the scan supports

`AssignTask` starts from worker 1. A configuration may ask for a single worker.
-/

namespace EpollThreads.Dispatch

open Config Foundations

/-- The pool that an accepted configuration builds is indexed within its bounds
exactly when it has a worker 1. -/
theorem pool_index {β : Type} {files : Files} {content : List Byte} {g : SERVER}
    (h : Accepts files content g) (newTaskThread : ℕ → β) (counts : List ℤ)
    (hc : counts.length = (initTaskThread newTaskThread g.maxthreads.toNat).length) :
    (∀ idx, Accesses g.maxclients counts idx → idx < counts.length) ↔ 2 ≤ g.maxthreads := by
  have hpos := h.inRange.maxthreads
  have hclients := h.inRange.maxclients
  rw [length_initTaskThread] at hc
  constructor
  · intro hidx
    by_contra hlt
    have hone := hidx 1 (accesses_one hclients (by omega))
    omega
  · intro htwo idx ha
    exact accesses_lt (by omega) ha

theorem pool_index_two :
    (∀ idx, Accesses 10000 [5, 3] idx → idx < 2) ↔ (2 : ℤ) ≤ 2 :=
  have h : Accepts (oneFile "maxthreads 2\n") (ascii "maxthreads 2\n")
      { initServerConfig with maxthreads := 2 } := ⟨[], _, rfl, rfl, rfl⟩
  pool_index h id [5, 3] rfl

/-- With `maxthreads 1` the first iteration already reads the counter of worker 1. -/
theorem not_pool_index :
    ¬∀ (files : Files) (content : List Byte) (g : SERVER), Accepts files content g →
      ∀ counts : List ℤ, counts.length = (initTaskThread id g.maxthreads.toNat).length →
        ∀ idx, Accesses g.maxclients counts idx → idx < counts.length := by
  intro h
  have hidx := h (oneFile "maxthreads 1\n") (ascii "maxthreads 1\n")
    { initServerConfig with maxthreads := 1 } ⟨[], _, rfl, rfl, rfl⟩ [0] rfl 1
    (accesses_one (by decide) (by decide))
  exact absurd hidx (by decide)

end EpollThreads.Dispatch
