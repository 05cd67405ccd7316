import EpollThreads.Shutdown.Handler
import Mathlib.Tactic

/-!
# How often the listener is destroyed

`sigtermHandler` clears `g_ListenThread` only after `delete` has returned. While one run of
the handler is between the two, another one that has passed its own test deletes the object
again.
-/

namespace EpollThreads.Shutdown

open Foundations Logging

namespace Process

/-- Some run of the handler has begun to delete and has not yet cleared the pointer. -/
def Deleting {T : Type*} (s : Process T) : Prop := ∃ t, ∃ f ∈ s.frames t, f.pc = .clear

/-- The step does not delete an object that another run of the handler is deleting. -/
def DeletesAlone {T : Type*} (s : Process T) : Action T → Prop
  | .handler t => ∀ f ∈ (s.frames t).head?, f.pc = .delete → s.pointer = true → ¬s.Deleting
  | _ => True

/-- While the pointer is not NULL, the object has been destroyed exactly if a run of the
handler has still to clear it. -/
structure Guarded {T : Type*} (s : Process T) : Prop where
  created : s.pointer = true → s.created = true
  fresh : s.created = false → s.destroyed = 0
  deletes : ∀ t, ∀ f ∈ s.frames t, f.pc = .delete ∨ f.pc = .clear → s.created = true
  destroyed : s.pointer = true → (0 < s.destroyed ↔ s.Deleting)

variable {T : Type*} [DecidableEq T] {verbosity : ℤ} {daemonize : Bool} {s s' u : Process T}
  {t t' : T} {f g : Frame} {fs : List Frame}

theorem mem_setFrames :
    g ∈ (s.setFrames t fs).frames t' ↔ if t' = t then g ∈ fs else g ∈ s.frames t' := by
  by_cases ht : t' = t
  · subst ht; simp [setFrames]
  · simp [setFrames, ht]

/-- A frame below the top or of another thread stays, and a new top is the only new frame. -/
theorem mem_replace (hf : s.frames t = f :: fs) {pc : HandlerPc}
    (h : g ∈ (s.setFrames t ({ f with pc := pc } :: fs)).frames t') :
    g = { f with pc := pc } ∨ g ∈ s.frames t' := by
  rw [mem_setFrames] at h
  by_cases ht : t' = t
  · subst ht
    rw [if_pos rfl, List.mem_cons] at h
    exact h.imp_right fun h => hf ▸ List.mem_cons_of_mem f h
  · rw [if_neg ht] at h
    exact .inr h

theorem mem_setCurrent {p : LogPc} (ho : s.current t ≠ .outside)
    (hg : g.pc = .delete ∨ g.pc = .clear) :
    g ∈ (s.setCurrent t p).frames t' ↔ g ∈ s.frames t' := by
  unfold current at ho
  unfold setCurrent
  cases hf : s.frames t with
  | nil => rfl
  | cons f fs =>
    rw [hf] at ho
    have hcases := HandlerPc.setLog_cases p ho
    have hold : g ≠ f := by
      rintro rfl
      rcases hcases with ⟨hpc, -⟩ | ⟨hpc, -⟩ <;> rw [hpc] at hg <;> simp at hg
    have hnew : g ≠ { f with pc := f.pc.setLog p } := by
      rintro rfl
      rcases hcases with ⟨-, hpc⟩ | ⟨-, hpc⟩ <;> rw [hpc] at hg <;> split_ifs at hg <;> simp at hg
    simp only [mem_setFrames]
    by_cases ht : t' = t
    · subst ht; simp [hf, hold, hnew]
    · simp [ht]

omit [DecidableEq T] in
theorem deleting_congr
    (h : ∀ t g, g.pc = .clear → (g ∈ s'.frames t ↔ g ∈ s.frames t)) :
    s'.Deleting ↔ s.Deleting := by
  constructor
  · rintro ⟨t, g, hg, hpc⟩
    exact ⟨t, g, (h t g hpc).mp hg, hpc⟩
  · rintro ⟨t, g, hg, hpc⟩
    exact ⟨t, g, (h t g hpc).mpr hg, hpc⟩

omit [DecidableEq T] in
theorem Guarded.of_frames (h : Guarded s) (hcreated : s'.created = s.created)
    (hpointer : s'.pointer = s.pointer) (hdestroyed : s'.destroyed = s.destroyed)
    (hmem : ∀ t g, (g.pc = .delete ∨ g.pc = .clear) → (g ∈ s'.frames t ↔ g ∈ s.frames t)) :
    Guarded s' := by
  refine ⟨?_, ?_, fun t g hg hpc => ?_, fun hp => ?_⟩
  · rw [hcreated, hpointer]
    exact h.created
  · rw [hcreated, hdestroyed]
    exact h.fresh
  · rw [hcreated]
    exact h.deletes t g ((hmem t g hpc).mp hg) hpc
  · have hsame := deleting_congr fun t g hpc => hmem t g (.inr hpc)
    rw [hdestroyed, hsame]
    exact h.destroyed (hpointer ▸ hp)

theorem Guarded.log (h : Guarded s) {p : LogPc} {owner : Option T} (ho : s.current t ≠ .outside) :
    Guarded { s.setCurrent t p with owner := owner } := by
  have hmem : ∀ t' g, (g.pc = .delete ∨ g.pc = .clear) →
      (g ∈ (s.setCurrent t p).frames t' ↔ g ∈ s.frames t') :=
    fun t' g hg => mem_setCurrent ho hg
  obtain ⟨base, frames, heq⟩ := s.setCurrent_fields t p
  rw [heq] at hmem ⊢
  exact h.of_frames rfl rfl rfl hmem

theorem Guarded.signal (h : Guarded s) {sig : Signal} {p : LogPc} :
    Guarded (s.setFrames t (⟨sig, .notice p⟩ :: s.frames t)) := by
  refine h.of_frames rfl rfl rfl fun t' g hg => ?_
  have hne : g ≠ ⟨sig, .notice p⟩ := by rintro rfl; simp at hg
  rw [mem_setFrames]
  by_cases ht : t' = t
  · subst ht; simp [hne]
  · simp [ht]

/-- An instruction of the handler that is neither in nor next to the deletion. -/
theorem deleting_replace (hf : s.frames t = f :: fs) {pc : HandlerPc} (hu : u.frames = s.frames)
    (hold : f.pc ≠ .clear) (hnew : pc ≠ .clear) :
    (u.setFrames t ({ f with pc := pc } :: fs)).Deleting ↔ s.Deleting := by
  refine deleting_congr fun t' g hg => ?_
  have hne : g ≠ f := by rintro rfl; exact hold hg
  have hne' : g ≠ { f with pc := pc } := by rintro rfl; exact hnew hg
  rw [mem_setFrames, hu]
  by_cases ht : t' = t
  · subst ht; simp [hf, hne, hne']
  · simp [ht]

theorem Guarded.handler (h : Guarded s) (hf : s.frames t = f :: fs) {pc : HandlerPc}
    (hm : HandlerMove daemonize s f.pc u pc) :
    Guarded (u.setFrames t ({ f with pc := pc } :: fs)) := by
  have hmem : f ∈ s.frames t := by rw [hf]; exact List.mem_cons_self
  have hnew : pc = .delete ∨ pc = .clear → s.created = true := by
    intro hpc
    generalize hq : f.pc = q at hm
    cases hm with
    | found hp => exact h.created hp
    | delete | deleteNull => exact h.deletes t f hmem (.inl hq)
    | _ => simp at hpc
  refine ⟨fun hp => ?_, fun hc => ?_, fun t' g hg hpc => ?_, fun hp => ?_⟩
  · exact hm.created.trans (h.created (hm.pointer hp))
  · have hc' : s.created = false := hm.created ▸ hc
    have hzero := h.fresh hc'
    generalize hq : f.pc = q at hm
    cases hm with
    | delete => simp [h.deletes t f hmem (.inl hq)] at hc'
    | _ => exact hzero
  · apply hm.created.trans
    rcases mem_replace (s := u) (hm.frames ▸ hf) hg with rfl | hg
    · exact hnew hpc
    · exact h.deletes t' g (hm.frames ▸ hg) hpc
  · have hp' : u.pointer = true := hp
    have hu := hm.frames
    generalize hq : f.pc = q at hm
    cases hm with
    | delete =>
      refine iff_of_true (Nat.succ_pos _) ⟨t, { f with pc := .clear }, ?_, rfl⟩
      simp [mem_setFrames]
    | deleteNull hnull => simp [hnull] at hp'
    | clear => simp at hp'
    | _ =>
      exact (h.destroyed hp').trans (deleting_replace hf hu (by simp [hq]) (by simp)).symm

theorem Guarded.step (h : Guarded s) {a : Action T}
    (ht : Transition verbosity daemonize s a s') : Guarded s' := by
  cases ht with
  | construct hf hc =>
    refine ⟨fun _ => rfl, fun hc => by simp at hc, fun _ _ _ _ => rfl, fun _ => ?_⟩
    refine iff_of_false (by simp [h.fresh hc]) ?_
    rintro ⟨t, g, hg, hpc⟩
    have := h.deletes t g hg (.inr hpc)
    simp [hc] at this
  | call hf hb => exact ⟨h.created, h.fresh, h.deletes, h.destroyed⟩
  | log hm => exact h.log hm.ne_outside
  | signal hsig => exact h.signal
  | handler hf hm => exact h.handler hf hm

omit [DecidableEq T] in
theorem guarded_initial {owner : Option T} : Guarded (initial owner) := by
  refine ⟨by simp [initial], fun _ => rfl, by simp [initial], by simp [initial]⟩

theorem destroyed_mono {a : Action T} (ht : Transition verbosity daemonize s a s') :
    s.destroyed ≤ s'.destroyed := by
  cases ht with
  | construct | call | signal => exact le_rfl
  | @log t p owner hm =>
    obtain ⟨base, frames, heq⟩ := s.setCurrent_fields t p
    rw [heq]
  | @handler t f fs u pc hf hm =>
    change s.destroyed ≤ u.destroyed
    generalize f.pc = q at hm
    cases hm <;> simp

/-- A second destruction is a deletion that was not alone. -/
theorem destroyed_step (h : Guarded s) {a : Action T} (hd : s.destroyed ≤ 1)
    (ht : Transition verbosity daemonize s a s') : s'.destroyed ≤ 1 ↔ s.DeletesAlone a := by
  cases ht with
  | construct | call | signal => exact iff_of_true hd trivial
  | @log t p owner hm =>
    obtain ⟨base, frames, heq⟩ := s.setCurrent_fields t p
    rw [heq]
    exact iff_of_true hd trivial
  | @handler t f fs u pc hf hm =>
    have halone : s.DeletesAlone (.handler t) ↔
        (f.pc = .delete → s.pointer = true → ¬s.Deleting) := by
      simp [DeletesAlone, hf]
    rw [halone]
    generalize hq : f.pc = q at hm
    cases hm with
    | delete hp =>
      have hdel := h.destroyed hp
      simp only [hp, forall_const, ← hdel]
      change s.destroyed + 1 ≤ 1 ↔ _
      omega
    | deleteNull hp => exact iff_of_true hd (by simp [hp])
    | _ => exact iff_of_true hd (by simp)

open Classical in
/-- In every interleaving of handler runs the listener is destroyed at most once, if and only if
no run deletes it while another one has begun to and not yet cleared the pointer. -/
theorem destroyed_le_one_iff {tr : List (Action T)}
    (h : (handlerMachine T verbosity daemonize).Reaches tr s) :
    s.destroyed ≤ 1 ↔ ((handlerMachine T verbosity daemonize).restrict
      fun s a _ => s.DeletesAlone a).Reaches tr s := by
  have guarded {tr : List (Action T)} {s : Process T}
      (h : (handlerMachine T verbosity daemonize).Reaches tr s) : s.Guarded :=
    h.invariant (fun ⟨_, hs⟩ => hs ▸ guarded_initial) fun hg hstep => hg.step (step_cases hstep)
  refine h.good_iff_restrict (Q := fun s => s.destroyed ≤ 1)
    (fun ⟨_, hs⟩ => by simp [hs, initial]) ?_ ?_
  · intro tr s a s' _ hstep hd
    exact (destroyed_mono (step_cases hstep)).trans hd
  · intro tr s a s' hreach hd hstep
    exact destroyed_step (guarded hreach) hd (step_cases hstep)

open Classical in
theorem destroyed_le_one_iff_terminated :
    ∃ s, (handlerMachine Unit MY_NOTICE false).Reaches terminated s ∧ s.destroyed = 1 ∧
      ((handlerMachine Unit MY_NOTICE false).restrict
        fun s a _ => s.DeletesAlone a).Reaches terminated s := by
  have h := Machine.Reaches.of_isSome (M := handlerMachine Unit MY_NOTICE false)
    ⟨none, rfl⟩ terminated rfl
  exact ⟨_, h, rfl, (destroyed_le_one_iff h).mp (by decide)⟩

/-- Interrupted inside `delete` by a second signal. -/
def interrupted : List (Action Unit) :=
  terminated.dropLast ++ [.signal () .SIGINT, .log (), .log (), .log (),
    .log (), .log (), .handler (), .handler (), .handler ()]

theorem not_destroyed_le_one :
    ¬∀ (tr : List (Action Unit)) (s : Process Unit),
      (handlerMachine Unit MY_NOTICE false).Reaches tr s → s.destroyed ≤ 1 := by
  intro hall
  have h := Machine.Reaches.of_isSome (M := handlerMachine Unit MY_NOTICE false)
    ⟨none, rfl⟩ interrupted rfl
  have htwice := hall _ _ h
  revert htwice
  decide

end Process
end EpollThreads.Shutdown
