import EpollThreads.Dispatch.ModeChange
import Mathlib.Data.List.Chain

/-!
# The handlers of a connection take turns

While `epoll_ctl` succeeds, the mask of a connection always asks for the handler
whose turn it is, and the kernel reports no other direction. After `iClose` the
connection is in no interest list, so no batch can name it again.
-/

namespace EpollThreads.Dispatch

open Foundations Events

/-- Strict alternation that begins with `iWrite`. -/
def Alternates (calls : List Handler) : Prop :=
  calls.IsChain (· ≠ ·) ∧ ∀ h ∈ calls.head?, h = .iWrite

theorem alternates_nil : Alternates [] :=
  ⟨List.isChain_nil, by simp⟩

theorem Alternates.concat {calls : List Handler} (h : Alternates calls) :
    Alternates (calls ++ [due calls]) := by
  obtain ⟨hchain, hhead⟩ := h
  constructor
  · apply hchain.append (List.isChain_singleton _)
    intro x hx y hy
    rw [due_of_getLast? hx, List.head?_cons, Option.mem_some_iff] at hy
    exact hy ▸ x.other_ne.symm
  · cases calls with
    | nil => simp [due]
    | cons x calls => simpa using hhead

/-- `epoll_ctl` does not fail in this step. -/
def ctlSucceeds {n : ℕ} : Action n → Bool
  | .assign (.add ok) | .handle _ (.mod ok) | .handle _ (.del ok) => ok
  | _ => true

namespace Server

variable {n : ℕ} {maxclients : ℤ} {s t : Server n} {l : List (Conn × Handler)}

/-- The mask of every registered connection asks for the handler whose turn it is. -/
structure InTurn (s : Server n) (l : List (Conn × Handler)) : Prop where
  owned : Owned s
  oneWay : OneWay s
  directed : Directed s
  kept : Kept (fun _ _ => False) s l
  alternates : ∀ c, Alternates (callsOn c l)

namespace InTurn

theorem of_start (h : Start s) : InTurn s [] :=
  ⟨.of_start h, .of_start h, .of_start h, .of_start h, fun _ => alternates_nil⟩

theorem eq_due (h : InTurn s l) {w : Fin n} {ok : Bool} {ev : Event} {h' : Handler}
    (hm : ModStep s t w ok ev h') : h' = due (callsOn ev.conn l) := by
  obtain ⟨stage, rest, hpc, hr⟩ := hm.current
  have hs := serving_of_returning hr
  obtain ⟨hreg, hconn⟩ := (h.owned.worker w).current hpc (stillRegistered_of_serving hs)
  have hdue := (h.kept.entry w ev.fd _ ⟨hreg, rfl⟩).resolve_left id
  rw [hconn] at hdue
  exact hdue.eq ((h.directed w).current hpc h' hs).1.1

theorem step (h : InTurn s l) {a : Action n} (ht : Transition maxclients s a t)
    (hr : s.Reports a) (hctl : ctlSucceeds a = true) : InTurn t (l ++ (s.served a).toList) := by
  have ho := h.owned.step ht
  rcases served_cases s a with ⟨hnone, ha⟩ | ⟨w, ok, rfl⟩
  · rw [hnone, Option.toList_none, List.append_nil]
    exact ⟨ho, h.oneWay.step oneWay_invariant ht, h.directed.step h.oneWay h.owned ht hr,
      h.kept.silent ht (fun w => ha w true) (fun _ _ _ _ => id), h.alternates⟩
  · cases ok with
    | false => cases hctl
    | true =>
      obtain ⟨ev, h', hm⟩ := mod_step h.owned ht
      rw [hm.served]
      refine ⟨ho, h.oneWay.step oneWay_invariant ht, h.directed.step h.oneWay h.owned ht hr,
        h.kept.turn h.owned ho hm (fun _ _ _ _ => id) (Or.inl rfl), fun c => ?_⟩
      by_cases hc : ev.conn = c
      · subst hc
        rw [Option.toList_some, callsOn_self, h.eq_due hm]
        exact (h.alternates _).concat
      · rw [Option.toList_some, callsOn_other hc]
        exact h.alternates c

end InTurn

/-- Accepted and closed. -/
def Ended (s : Server n) (c : Conn) : Prop := c < s.accepted ∧ ∀ fd, s.files fd ≠ some c

theorem Ended.step {c : Conn} (h : Ended s c) {a : Action n} (ht : Transition maxclients s a t) :
    Ended t c := by
  obtain ⟨hlt, hno⟩ := h
  refine ⟨hlt.trans_le (accepted_le ht), fun fd hfd => ?_⟩
  rcases Owned.files_step ht with ⟨hf, -⟩ | ⟨fd₀, -, hf, -⟩ | ⟨fd₀, c₀, -, hf, -⟩ <;>
    rw [hf] at hfd
  · exact hno fd hfd
  · rcases Owned.update_eq_some hfd with ⟨-, rfl⟩ | ⟨-, hfd⟩
    · exact hlt.false
    · exact hno fd hfd
  · exact hno fd (Owned.update_none_eq_some hfd).2

/-- A worker gets to the last instruction of `iClose` by its `close` only. -/
theorem dec_step {a : Action n} (ht : Transition maxclients s a t) {w : Fin n} {ev : Event}
    {rest : List Event} (hpc : (t.workers w).pc = .event ev .dec rest) :
    (s.workers w).pc = .event ev .dec rest ∨
      (a = .handle w .close ∧ ∃ deleted, (s.workers w).pc = .event ev (.close deleted) rest) := by
  have hset : ∀ {w' : Fin n} {x : Worker},
      ((s.setWorker w' x).workers w).pc = .event ev .dec rest →
      (x.pc = .event ev .dec rest → (s.workers w').pc = .event ev .dec rest) →
        (s.workers w).pc = .event ev .dec rest :=
    of_worker_setWorker (P := fun x => x.pc = .event ev .dec rest)
  have hne : ∀ {pc : WorkerPc} {Q : Prop}, pc.removed = false → pc = .event ev .dec rest → Q := by
    rintro _ Q hremoved rfl
    cases hremoved
  cases ht with
  | shutdown | listenerTest | listenFails | accept | read | addFail => exact Or.inl hpc
  | refuse => exact Or.inl (by simpa using hpc)
  | addOk | increment => exact Or.inl (hset hpc id)
  | workerTest =>
    refine Or.inl (hset hpc (hne ?_))
    split <;> rfl
  | wait | dec => exact Or.inl (hset hpc (hne (WorkerPc.removed_dispatch _ _)))
  | quiet h hq hp =>
    have hst := (stillRegistered_advance (Or.inl hq) hp).2
    exact Or.inl (hset hpc (hne (Worker.removed_resume hst)))
  | modOk h hp =>
    have hst := (stillRegistered_advance (Or.inr rfl) hp).2
    exact Or.inl (hset hpc (hne (Worker.removed_resume hst)))
  | delOk | delFail => exact Or.inl (hset hpc (by simp))
  | @close w' ev' deleted rest' h =>
    by_cases hw : w = w'
    · subst hw
      simp only [setWorker_workers, Function.update_self] at hpc
      obtain ⟨rfl, -, rfl⟩ := WorkerPc.event.inj hpc
      exact Or.inr ⟨rfl, deleted, h⟩
    · exact Or.inl (by simpa [hw] using hpc)

/-- What `iClose` still has to decrement for is closed, and no other worker has it. -/
def LastDecrement (s : Server n) : Prop :=
  ∀ w ev rest, (s.workers w).pc = .event ev .dec rest → s.Ended ev.conn ∧
    ∀ w' ev' rest', (s.workers w').pc = .event ev' .dec rest' → ev'.conn = ev.conn → w' = w

/-- An event names an open connection up to the `close` for it. -/
theorem Ended.stage_eq_dec {c : Conn} (h : Ended s c) (ho : Owned s) {w : Fin n} {ev : Event}
    {stage : Stage} {rest : List Event} (hpc : (s.workers w).pc = .event ev stage rest)
    (hc : ev.conn = c) : stage = .dec := by
  by_contra hst
  exact h.2 ev.fd (hc ▸ (ho.event hpc hst).1)

theorem ended_close (ho : Owned s) {w : Fin n} {ev : Event} {deleted : Bool} {rest : List Event}
    (ht : Transition maxclients s (.handle w .close) t)
    (hpc : (s.workers w).pc = .event ev (.close deleted) rest) : Ended t ev.conn := by
  have hfile := (ho.event hpc (by simp)).1
  cases ht with
  | quiet h hq => exact hq.elim
  | @close w ev' deleted' rest' hpc' =>
    obtain ⟨rfl, -, -⟩ := WorkerPc.event.inj (hpc.symm.trans hpc')
    rw [closeFd_eq hfile]
    refine ⟨ho.files_lt _ _ hfile, fun fd hfd => ?_⟩
    obtain ⟨hne, hfd⟩ := Owned.update_none_eq_some hfd
    exact hne (ho.files_inj _ _ _ hfd hfile)

namespace LastDecrement

theorem of_start (h : Start s) : LastDecrement s := by
  intro w ev rest hpc
  rcases (h.worker w).2.2.2 with hpc' | hpc' <;> simp [hpc'] at hpc

theorem step (h : LastDecrement s) (ho : Owned s) {a : Action n}
    (ht : Transition maxclients s a t) : LastDecrement t := by
  intro w ev rest hpc
  rcases dec_step ht hpc with hold | ⟨rfl, deleted, hclose⟩
  · obtain ⟨hended, honly⟩ := h w ev rest hold
    refine ⟨hended.step ht, fun w' ev' rest' hpc' hc => ?_⟩
    rcases dec_step ht hpc' with hold' | ⟨-, deleted, hclose⟩
    · exact honly w' ev' rest' hold' hc
    · cases hended.stage_eq_dec ho hclose hc
  · refine ⟨ended_close ho ht hclose, fun w' ev' rest' hpc' hc => ?_⟩
    rcases dec_step ht hpc' with hold' | ⟨hw, -⟩
    · cases (h w' ev' rest' hold').1.stage_eq_dec ho hclose hc.symm
    · cases hw
      rfl

end LastDecrement

/-- Closed, and in the hands of no worker. -/
def Gone (s : Server n) (c : Conn) : Prop :=
  s.Ended c ∧ ∀ w ev stage rest, (s.workers w).pc = .event ev stage rest → ev.conn ≠ c

namespace Gone

theorem step {c : Conn} (h : Gone s c) (ho : Owned s) {a : Action n}
    (ht : Transition maxclients s a t) : Gone t c := by
  have hended := h.1.step ht
  refine ⟨hended, fun w ev stage rest hpc hc => ?_⟩
  obtain rfl := hended.stage_eq_dec (ho.step ht) hpc hc
  rcases dec_step ht hpc with hold | ⟨-, deleted, hclose⟩
  · exact h.2 w ev _ rest hold hc
  · exact h.2 w ev _ rest hclose hc

theorem of_dec (h : LastDecrement s) (ho : Owned s) {w : Fin n} {ev : Event} {rest : List Event}
    (ht : Transition maxclients s (.handle w .dec) t)
    (hpc : (s.workers w).pc = .event ev .dec rest) : Gone t ev.conn := by
  obtain ⟨hended, honly⟩ := h w ev rest hpc
  refine ⟨hended.step ht, fun w' ev' stage rest' hpc' hc => ?_⟩
  obtain rfl := (hended.step ht).stage_eq_dec (ho.step ht) hpc' hc
  rcases dec_step ht hpc' with hold | ⟨hclose, -⟩
  · obtain rfl := honly w' ev' rest' hold hc
    have hremoved : (t.workers w').pc.removed = false := by
      cases ht with
      | quiet h hq => exact hq.elim
      | dec => simpa using WorkerPc.removed_dispatch _ _
    rw [hpc'] at hremoved
    cases hremoved
  · cases hclose

end Gone

/-- No handler is called on a connection after its `iClose`. -/
theorem gone_of_run {s₀ u : Server n} (h₀ : Start s₀) {tr tr' : List (Action n)} {w : Fin n}
    {ev : Event} {rest : List Event}
    (h : (serverMachine n maxclients).Run s₀ (tr ++ .handle w .dec :: tr') s)
    (hu : (serverMachine n maxclients).Run s₀ tr u)
    (hpc : (u.workers w).pc = .event ev .dec rest) : Gone s ev.conn := by
  have hinv : Owned u ∧ LastDecrement u :=
    hu.invariant (I := fun s => Owned s ∧ LastDecrement s) (P := fun _ => True)
      (fun _ hs hstep => ⟨hs.1.step (step_cases hstep), hs.2.step hs.1 (step_cases hstep)⟩)
      ⟨.of_start h₀, .of_start h₀⟩ (fun _ _ => trivial)
  obtain ⟨u', hu', hrest⟩ := h.split
  obtain rfl := hu'.functional hu
  obtain ⟨v, hstep, hrest⟩ := hrest.first
  have ht : Transition maxclients u' (.handle w .dec) v := step_cases hstep
  have hv : Owned v ∧ Gone v ev.conn := ⟨hinv.1.step ht, .of_dec hinv.2 hinv.1 ht hpc⟩
  exact (hrest.invariant (I := fun s => Owned s ∧ Gone s ev.conn) (P := fun _ => True)
    (fun _ hs hstep => ⟨hs.1.step (step_cases hstep), hs.2.step hs.1 (step_cases hstep)⟩)
    hv (fun _ _ => trivial)).2

/-- Alternation of handlers: the handlers that return 0 on a connection take turns, the write
handler first, no mask asks for both directions, and after `iClose` nobody works for the
connection. -/
theorem handlers_alternate {s₀ : Server n} (h₀ : Start s₀) {tr : List (Action n)}
    (h : (maskedMachine n maxclients).Run s₀ tr s) (hctl : ∀ a ∈ tr, ctlSucceeds a = true) :
    (∀ c, Alternates (callsOn c ((maskedMachine n maxclients).record served s₀ tr))) ∧
    (∀ w fd r, (s.workers w).Entry fd r →
      ¬(has r.events EPOLLIN = true ∧ has r.events EPOLLOUT = true)) ∧
    ∀ tr₁ w tr₂ u ev rest, tr = tr₁ ++ .handle w .dec :: tr₂ →
      (maskedMachine n maxclients).Run s₀ tr₁ u → (u.workers w).pc = .event ev .dec rest →
        ∀ w' ev' stage rest', (s.workers w').pc = .event ev' stage rest' →
          ev'.conn ≠ ev.conn := by
  have hturn : InTurn s ((maskedMachine n maxclients).record served s₀ tr) := by
    refine h.invariant_record (.of_start h₀) (fun ha hs hstep => ?_) hctl
    obtain ⟨ht, hr⟩ := masked_step hstep
    exact hs.step ht hr ha
  refine ⟨hturn.alternates, fun w fd r he => ?_, ?_⟩
  · obtain ⟨hmem, rfl⟩ := he
    obtain ⟨h', hask⟩ := hturn.oneWay w fd hmem
    rintro ⟨hin, hout⟩
    have hread : .iRead = h' := hask.eq hin
    have hwrite : .iWrite = h' := hask.eq hout
    exact absurd (hread.trans hwrite.symm) (by decide)
  · rintro tr₁ w tr₂ u ev rest rfl hu hpc
    exact (gone_of_run h₀ h.of_restrict hu.of_restrict hpc).2

/-- Worker `w` reads an answer from `fd`, then finds it hung up and closes it. -/
def answerAndClose {n : ℕ} (w : Fin n) (fd : Fd) (errno : ℤ) : List (Action n) :=
  [.workerTest w, .wait w [(fd, EPOLLIN)], .handle w (.recv (.data (ascii "Hi")) errno),
    .handle w (.recv .fail EAGAIN), .handle w (.mod true), .workerTest w,
    .wait w [(fd, EPOLLERR)], .handle w .error, .handle w (.del true), .handle w .close,
    .handle w .dec]

theorem handlers_alternate_exchange :
    ∃ s : Server 2,
      (maskedMachine 2 10).Run (initial 2) (connect 7 ++ greet 1 7 0 ++ [.handle 1 (.mod true)] ++
        answerAndClose 1 7 0) s ∧
      (maskedMachine 2 10).record served (initial 2) (connect 7 ++ greet 1 7 0 ++
        [.handle 1 (.mod true)] ++ answerAndClose 1 7 0) = [(0, .iWrite), (0, .iRead)] ∧
      ∀ c, Alternates (callsOn c ((maskedMachine 2 10).record served (initial 2) (connect 7 ++
        greet 1 7 0 ++ [.handle 1 (.mod true)] ++ answerAndClose 1 7 0))) := by
  have h := Machine.Run.of_isSome (M := maskedMachine 2 10) (s := initial 2)
    (connect 7 ++ greet 1 7 0 ++ [.handle 1 (.mod true)] ++ answerAndClose 1 7 0) (by decide)
  exact ⟨_, h, by decide, (handlers_alternate start_initial h (by decide)).1⟩

end Server

end EpollThreads.Dispatch
