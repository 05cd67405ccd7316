import EpollThreads.Logging.Records

/-!
# The log file is a sequence of whole records

The mutex lets one thread at a time write to the log. So the file is what the
finished calls wrote, in the order in which they got past the level test, and
behind them the beginning of the record of the thread that holds the mutex.
-/

namespace EpollThreads.Logging

open Foundations

variable {T : Type*} {verbosity : ℤ} {gettid : T → ℕ}

/-- Whoever is past the lock holds the mutex; a filtered call that is over may hold it too. -/
def LogState.Exclusive (s : LogState T) : Prop := ∀ t, (s.pc t).Holding → s.owner = some t

/-- The stream of a call: its record, of which no more has been written than there is. -/
structure Stream.For (gettid : T → ℕ) (c : LogCall T) (f : Stream) : Prop where
  record : ∃ time, logRecord (gettid c.thread) time c.level
    (c.text.take (MY_MAX_LOGMSG_LEN - 1)) = some f.record
  written : f.written ≤ f.record.length

/-- A finished call has written its record, as far as no write failed. -/
def Entry.Sound (gettid : T → ℕ) (e : Entry T) : Prop :=
  e.stream.For gettid e.call ∧ (e.stream.failed = false → e.stream.out = e.stream.record) ∨
    e.stream = ⟨[], 0, true⟩

/-- The level of the call a thread is in. -/
def LogPc.level : LogPc → Option ℤ
  | .locking level | .testing level | .formatting level | .raw level => some level
  | _ => none

namespace Logger

/-- The call of a thread that is past the level test and has not finished. -/
def pending (s : Logger T) (t : T) : Option (LogCall T) :=
  match s.log.pc t with
  | .formatting level | .raw level => some ⟨t, level, s.text t⟩
  | _ => none

def holderPending (s : Logger T) : Option (LogCall T) := s.log.owner.bind s.pending

def holderOut (s : Logger T) : List Byte := ((s.log.owner.bind s.stream).map Stream.out).getD []

/-- What each thread is at. -/
structure Sound (gettid : T → ℕ) (s : Logger T) : Prop where
  exclusive : s.log.Exclusive
  msg : ∀ t level, s.log.pc t = .raw level → s.msg t = (s.text t).take (MY_MAX_LOGMSG_LEN - 1)
  stream : ∀ t f, s.stream t = some f →
    ∃ level, s.log.pc t = .raw level ∧ f.For gettid ⟨t, level, s.text t⟩

/-- What has been passed and finished so far, and what is in the file. -/
structure Logged (gettid : T → ℕ) (content : List Byte) (s : Logger T)
    (passed : List (LogCall T)) (entries : List (Entry T)) : Prop where
  sound : s.Sound gettid
  passed : passed = entries.map Entry.call ++ s.holderPending.toList
  each : ∀ e ∈ entries, e.Sound gettid
  content : s.content = content ++ (entries.map fun e => e.stream.out).flatten ++ s.holderOut

variable {s s' : Logger T} {t : T}

theorem Sound.owner_eq (h : s.Sound gettid) (hp : (s.log.pc t).Holding) : s.log.owner = some t :=
  h.exclusive t hp

theorem Sound.stream_none (h : s.Sound gettid) (hp : ∀ level, s.log.pc t ≠ .raw level) :
    s.stream t = none := by
  cases hs : s.stream t with
  | none => rfl
  | some f =>
    obtain ⟨level, hpc, -⟩ := h.stream t f hs
    exact absurd hpc (hp level)

variable [DecidableEq T]

omit [DecidableEq T] in
theorem Sound.move (h : s.Sound gettid)
    (hoth : ∀ x, x ≠ t → s'.log.pc x = s.log.pc x ∧ s'.text x = s.text x ∧
      s'.msg x = s.msg x ∧ s'.stream x = s.stream x)
    (hown : ∀ x, x ≠ t → s.log.owner = some x → s'.log.owner = some x)
    (ho : (s'.log.pc t).Holding → s'.log.owner = some t)
    (hmsg : ∀ level, s'.log.pc t = .raw level →
      s'.msg t = (s'.text t).take (MY_MAX_LOGMSG_LEN - 1))
    (hf : ∀ f, s'.stream t = some f →
      ∃ level, s'.log.pc t = .raw level ∧ f.For gettid ⟨t, level, s'.text t⟩) :
    s'.Sound gettid := by
  refine ⟨fun x hx => ?_, fun x level hx => ?_, fun x f hx => ?_⟩ <;> by_cases he : x = t
  · exact he ▸ ho (he ▸ hx)
  · rw [(hoth x he).1] at hx
    exact hown x he (h.exclusive x hx)
  · exact he ▸ hmsg level (he ▸ hx)
  · obtain ⟨hpc, htext, hmsg', -⟩ := hoth x he
    rw [hpc] at hx
    rw [hmsg', htext, h.msg x level hx]
  · exact he ▸ hf f (he ▸ hx)
  · obtain ⟨hpc, htext, -, hstream⟩ := hoth x he
    rw [hstream] at hx
    rw [hpc, htext]
    exact h.stream x f hx

theorem Sound.step (h : s.Sound gettid) {a : LoggerAct T}
    (ht : Transition verbosity gettid s a s') : s'.Sound gettid := by
  cases ht with
  | @call t level text hpc =>
    have hnone : s.stream t = none := h.stream_none fun l hl => by simp [hpc] at hl
    refine h.move (t := t) (fun x hx => by simp [hx]) (fun x _ hx => hx) ?_ ?_ ?_
    · simp [LogPc.Holding]
    · simp
    · simp [hnone]
  | @lock t level hpc ho =>
    have hnone : s.stream t = none := h.stream_none fun l hl => by simp [hpc] at hl
    refine h.move (t := t) (fun x hx => by simp [hx]) (fun x _ hx => by simp [ho] at hx) ?_ ?_ ?_
    · simp
    · simp
    · simp [hnone]
  | @filter t level hpc hl =>
    have hnone : s.stream t = none := h.stream_none fun l hl => by simp [hpc] at hl
    refine h.move (t := t) (fun x hx => by simp [hx]) (fun x _ hx => hx) ?_ ?_ ?_
    · simp [LogPc.Holding]
    · simp
    · simp [hnone]
  | @pass t level hpc hl =>
    have hnone : s.stream t = none := h.stream_none fun l hl => by simp [hpc] at hl
    have hown : s.log.owner = some t := h.owner_eq (by simp [hpc, LogPc.Holding])
    refine h.move (t := t) (fun x hx => by simp [hx]) (fun x _ hx => hx) (fun _ => hown) ?_ ?_
    · simp
    · simp [hnone]
  | @format t level hpc =>
    have hnone : s.stream t = none := h.stream_none fun l hl => by simp [hpc] at hl
    have hown : s.log.owner = some t := h.owner_eq (by simp [hpc, LogPc.Holding])
    refine h.move (t := t) (fun x hx => by simp [hx]) (fun x _ hx => hx) (fun _ => hown) ?_ ?_
    · simp
    · simp [hnone]
  | @opened t time level r hpc hs hr =>
    have hown : s.log.owner = some t := h.owner_eq (by simp [hpc, LogPc.Holding])
    refine h.move (t := t) (fun x hx => by simp [setStream, hx]) (fun x _ hx => hx)
      (fun _ => hown) (fun l hl => h.msg t l hl) fun f hf => ⟨level, hpc, ?_⟩
    obtain rfl : (⟨r, 0, false⟩ : Stream) = f := by simpa [setStream] using hf
    rw [h.msg t level hpc] at hr
    exact ⟨⟨time, hr⟩, Nat.zero_le _⟩
  | @refused t time level hpc hs =>
    have hown : s.log.owner = some t := h.owner_eq (by simp [hpc, LogPc.Holding])
    refine h.move (t := t) (fun x hx => by simp [hx]) (fun x _ hx => hx) (fun _ => hown) ?_ ?_
    · simp
    · simp [hs]
  | @write t k f hs hk =>
    obtain ⟨level, hpc, hfor⟩ := h.stream t f hs
    have hown : s.log.owner = some t := h.owner_eq (by simp [hpc, LogPc.Holding])
    refine h.move (t := t) (fun x hx => by simp [setStream, hx]) (fun x _ hx => hx)
      (fun _ => hown) (fun l hl => h.msg t l hl) fun g hg => ⟨level, hpc, ?_⟩
    obtain rfl : { f with written := f.written + k } = g := by simpa [setStream] using hg
    exact ⟨hfor.record, hk⟩
  | @writeErr t f hs =>
    obtain ⟨level, hpc, hfor⟩ := h.stream t f hs
    have hown : s.log.owner = some t := h.owner_eq (by simp [hpc, LogPc.Holding])
    refine h.move (t := t) (fun x hx => by simp [setStream, hx]) (fun x _ hx => hx)
      (fun _ => hown) (fun l hl => h.msg t l hl) fun g hg => ⟨level, hpc, ?_⟩
    obtain rfl : { f with failed := true } = g := by simpa [setStream] using hg
    exact ⟨hfor.record, hfor.written⟩
  | @fclose t level f hpc hs hf =>
    have hown : s.log.owner = some t := h.owner_eq (by simp [hpc, LogPc.Holding])
    refine h.move (t := t) (fun x hx => by simp [setStream, hx]) (fun x _ hx => hx)
      (fun _ => hown) ?_ ?_
    · simp [setStream]
    · simp [setStream]
  | @unlock t hpc =>
    have hnone : s.stream t = none := h.stream_none fun l hl => by simp [hpc] at hl
    have hown : s.log.owner = some t := h.owner_eq (by simp [hpc, LogPc.Holding])
    refine h.move (t := t) (fun x hx => by simp [hx])
      (fun x hx ho => absurd (Option.some.inj (ho.symm.trans hown)) hx) ?_ ?_ ?_
    · simp [LogPc.Holding]
    · simp
    · simp [hnone]

variable {content : List Byte} {cs : List (LogCall T)} {es : List (Entry T)}

section Holder

omit [DecidableEq T]

theorem holderPending_eq (h : s.log.owner = some t) : s.holderPending = s.pending t := by
  rw [holderPending, h, Option.bind_some]

theorem holderOut_eq (h : s.log.owner = some t) :
    s.holderOut = ((s.stream t).map Stream.out).getD [] := by
  rw [holderOut, h, Option.bind_some]

theorem Logged.quiet (h : Logged gettid content s cs es) (hs' : s'.Sound gettid)
    (ho : s'.log.owner = s.log.owner) (hc : s'.content = s.content)
    (hsame : ∀ x, s.log.owner = some x → s'.pending x = s.pending x ∧
      ((s'.stream x).map Stream.out).getD [] = ((s.stream x).map Stream.out).getD []) :
    Logged gettid content s' cs es := by
  have hboth : s'.holderPending = s.holderPending ∧ s'.holderOut = s.holderOut := by
    cases hx : s.log.owner with
    | none => simp [holderPending, holderOut, ho, hx]
    | some x =>
      obtain ⟨hp, hst⟩ := hsame x hx
      rw [holderPending_eq (ho.trans hx), holderPending_eq hx, holderOut_eq (ho.trans hx),
        holderOut_eq hx, hp, hst]
      exact ⟨rfl, rfl⟩
  exact ⟨hs', by rw [hboth.1, h.passed], h.each, by rw [hc, hboth.2, h.content]⟩

end Holder

omit [DecidableEq T] in
/-- A call is over: its record, or what was written of it, belongs to the file for good. -/
theorem Logged.finish (h : Logged gettid content s cs es) (hs' : s'.Sound gettid) {level : ℤ}
    {f : Stream} (hpc : s.log.pc t = .raw level) (hpc' : s'.log.pc t = .unlocking)
    (ho : s'.log.owner = s.log.owner) (hc : s'.content = s.content)
    (hout : ((s.stream t).map Stream.out).getD [] = f.out) (hstream' : s'.stream t = none)
    (hf : Entry.Sound gettid ⟨⟨t, level, s.text t⟩, f⟩) :
    Logged gettid content s' cs (es ++ [⟨⟨t, level, s.text t⟩, f⟩]) := by
  have hown : s.log.owner = some t := h.sound.owner_eq (by simp [hpc, LogPc.Holding])
  have hpend : s.holderPending = some ⟨t, level, s.text t⟩ := by
    rw [holderPending_eq hown, pending, hpc]
  have hpend' : s'.holderPending = none := by
    rw [holderPending_eq (ho.trans hown), pending, hpc']
  refine ⟨hs', ?_, ?_, ?_⟩
  · rw [h.passed, hpend, hpend']
    simp
  · intro e he
    rcases List.mem_append.mp he with he | he
    · exact h.each e he
    · exact List.mem_singleton.mp he ▸ hf
  · rw [hc, h.content, holderOut_eq hown, holderOut_eq (ho.trans hown), hout, hstream']
    simp

theorem Logged.step (h : Logged gettid content s cs es) {a : LoggerAct T}
    (ht : Transition verbosity gettid s a s') :
    Logged gettid content s' (cs ++ (s.passed verbosity a).toList)
      (es ++ (s.finished a).toList) := by
  have hs' := h.sound.step ht
  cases ht with
  | @call t level text hpc =>
    simp only [Logger.passed, finished, Option.toList_none, List.append_nil]
    refine h.quiet hs' rfl rfl fun x hx => ?_
    by_cases he : x = t
    · subst he
      simp [pending, hpc]
    · simp [pending, he]
  | @lock t level hpc ho =>
    simp only [Logger.passed, finished, Option.toList_none, List.append_nil]
    have hnone : s.stream t = none := h.sound.stream_none fun l hl => by simp [hpc] at hl
    refine ⟨hs', ?_, h.each, ?_⟩
    · rw [h.passed]
      simp [holderPending, ho, pending]
    · rw [h.content]
      simp [holderOut, ho, hnone]
  | @filter t level hpc hl =>
    simp only [Logger.passed, hpc, if_pos hl, finished, Option.toList_none, List.append_nil]
    refine h.quiet hs' rfl rfl fun x hx => ?_
    by_cases he : x = t
    · subst he
      simp [pending, hpc]
    · simp [pending, he]
  | @pass t level hpc hl =>
    have hown : s.log.owner = some t := h.sound.owner_eq (by simp [hpc, LogPc.Holding])
    simp only [Logger.passed, hpc, if_neg hl, finished, Option.toList_none, List.append_nil]
    refine ⟨hs', ?_, h.each, ?_⟩
    · rw [h.passed]
      simp [holderPending, hown, pending, hpc]
    · rw [h.content]
      rfl
  | @format t level hpc =>
    simp only [Logger.passed, finished, Option.toList_none, List.append_nil]
    refine h.quiet hs' rfl rfl fun x hx => ?_
    by_cases he : x = t
    · subst he
      simp [pending, hpc]
    · simp [pending, he]
  | @opened t time level r hpc hs hr =>
    simp only [Logger.passed, finished, Option.toList_none, List.append_nil]
    refine h.quiet hs' rfl rfl fun x hx => ?_
    by_cases he : x = t
    · subst he
      simp [pending, setStream, hs, Stream.out]
    · simp [pending, setStream, he]
  | @refused t time level hpc hs =>
    simp only [Logger.passed, finished, hpc, Option.toList_none, List.append_nil,
      Option.toList_some]
    exact h.finish hs' hpc (by simp) rfl rfl (by simp [hs, Stream.out]) hs (Or.inr rfl)
  | @write t k f hs hk =>
    obtain ⟨level, hpc, hfor⟩ := h.sound.stream t f hs
    have hown : s.log.owner = some t := h.sound.owner_eq (by simp [hpc, LogPc.Holding])
    simp only [Logger.passed, finished, Option.toList_none, List.append_nil]
    refine ⟨hs', ?_, h.each, ?_⟩
    · rw [h.passed]
      rfl
    · rw [h.content]
      simp [holderOut, hown, setStream, hs, Stream.out, List.take_add]
  | @writeErr t f hs =>
    simp only [Logger.passed, finished, Option.toList_none, List.append_nil]
    refine h.quiet hs' rfl rfl fun x hx => ?_
    by_cases he : x = t
    · subst he
      simp [pending, setStream, hs, Stream.out]
    · simp [pending, setStream, he]
  | @fclose t level f hpc hs hf =>
    obtain ⟨level', hpc', hfor⟩ := h.sound.stream t f hs
    obtain rfl : level = level' := by simpa [hpc] using hpc'
    simp only [Logger.passed, finished, hpc, hs, Option.toList_none, List.append_nil,
      Option.toList_some]
    refine h.finish hs' hpc (by simp) rfl rfl (by simp [hs]) (by simp [setStream])
      (Or.inl ⟨hfor, fun hok => ?_⟩)
    rw [hok] at hf
    rw [Stream.out, hf.resolve_left Bool.false_ne_true, List.take_length]
  | @unlock t hpc =>
    simp only [Logger.passed, finished, Option.toList_none, List.append_nil]
    have hown : s.log.owner = some t := h.sound.owner_eq (by simp [hpc, LogPc.Holding])
    have hnone : s.stream t = none := h.sound.stream_none fun l hl => by simp [hpc] at hl
    refine ⟨hs', ?_, h.each, ?_⟩
    · rw [h.passed, holderPending_eq hown, pending, hpc]
      simp [holderPending]
    · rw [h.content, holderOut_eq hown, hnone]
      simp [holderOut]

omit [DecidableEq T] in
theorem logged_of_start (h : s.Start content) : Logged gettid content s [] [] := by
  have hown : s.log.owner = none := by rw [h.log]; rfl
  refine ⟨⟨fun t ht => ?_, fun t level ht => ?_, fun t f hf => ?_⟩, ?_, nofun, ?_⟩
  · simp [h.log, LogState.idle, LogPc.Holding] at ht
  · simp [h.log, LogState.idle] at ht
  · simp [h.stream t] at hf
  · simp [holderPending, hown]
  · simp [holderOut, hown, h.content]

/-- In every interleaving the log file is what was in it, the records of the finished calls in
the order in which they got past the level test, each as far as its writes succeeded, and the
part of the record that the holder of the mutex has written. -/
theorem log_records {s₀ : Logger T} {tr : List (LoggerAct T)} (hs : s₀.Start content)
    (h : (loggerMachine T verbosity gettid content).Run s₀ tr s) :
    let M := loggerMachine T verbosity gettid content
    let entries := M.record Logger.finished s₀ tr
    M.record (Logger.passed verbosity) s₀ tr =
        entries.map Entry.call ++ s.holderPending.toList ∧
      (∀ e ∈ entries, e.Sound gettid) ∧
      s.content = content ++ (entries.map fun e => e.stream.out).flatten ++ s.holderOut := by
  have hlogged : Logged gettid content s
      ((loggerMachine T verbosity gettid content).record (Logger.passed verbosity) s₀ tr)
      ((loggerMachine T verbosity gettid content).record Logger.finished s₀ tr) := by
    induction h with
    | nil => exact logged_of_start hs
    | snoc hrun hstep ih =>
      rw [hrun.record_snoc, hrun.record_snoc]
      exact ih.step (step_cases hstep)
  exact ⟨hlogged.passed, hlogged.each, hlogged.content⟩

def silent : Logger Bool := ⟨.idle, fun _ => [], fun _ => [], fun _ => none, []⟩

def noon : Time := ⟨2024, 6, 1, 12, 0, 0, 0⟩

/-- Two threads log; the second waits while the first writes in two pieces. -/
def chatter : List (LoggerAct Bool) :=
  [.call false MY_NOTICE (ascii "hi"), .call true MY_WARNING (ascii "no"), .lock false,
    .test false, .format false, .fopen false noon true, .write false 30, .write false 12,
    .fclose false, .unlock false, .lock true, .test true, .format true, .fopen true noon true,
    .write true 42, .fclose true, .unlock true]

/-- The second thread is in the middle of its record. -/
theorem log_records_chatter :
    ∃ s, (loggerMachine Bool MY_DEBUG (fun _ => 1) []).Run silent (chatter.take 15) s ∧
      let M := loggerMachine Bool MY_DEBUG (fun _ => 1) []
      let entries := M.record Logger.finished silent (chatter.take 15)
      M.record (Logger.passed MY_DEBUG) silent (chatter.take 15) =
          entries.map Entry.call ++ s.holderPending.toList ∧
        (∀ e ∈ entries, e.Sound fun _ => 1) ∧
        s.content = [] ++ (entries.map fun e => e.stream.out).flatten ++ s.holderOut := by
  have hrun := Machine.Run.of_isSome (M := loggerMachine Bool MY_DEBUG (fun _ => 1) [])
    (s := silent) (chatter.take 15) (by decide)
  exact ⟨_, hrun, log_records ⟨rfl, fun _ => rfl, rfl⟩ hrun⟩

/-- What is asked of the calls holds of those that are under way and of those that passed. -/
theorem calls_of_run {P : ℤ → List Byte → Prop} {s₀ : Logger T} {tr : List (LoggerAct T)}
    (hs : s₀.Start content) (h : (loggerMachine T verbosity gettid content).Run s₀ tr s)
    (hP : ∀ t level text, .call t level text ∈ tr → P level text) :
    (∀ t level, (s.log.pc t).level = some level → P level (s.text t)) ∧
      ∀ c ∈ (loggerMachine T verbosity gettid content).record (Logger.passed verbosity) s₀ tr,
        P c.level c.text := by
  induction h with
  | nil => exact ⟨fun t level ht => by simp [hs.log, LogState.idle, LogPc.level] at ht,
    fun c hc => by cases hc⟩
  | @snoc s s' tr a hrun hstep ih =>
    obtain ⟨hunder, hpassed⟩ := ih fun t level text hmem =>
      hP t level text (List.mem_append_left _ hmem)
    have hmove : ∀ (t : T) (pc : LogPc), (∀ level, pc.level = some level → P level (s.text t)) →
        ∀ x level, (Function.update s.log.pc t pc x).level = some level → P level (s.text x) := by
      intro t pc hpc x level hx
      by_cases he : x = t
      · subst he
        exact hpc level (by simpa using hx)
      · exact hunder x level (by simpa [Function.update_of_ne he] using hx)
    rw [hrun.record_snoc]
    refine ⟨?_, fun c hc => ?_⟩
    · cases step_cases hstep with
      | @call t level text hpc =>
        intro x l hx
        by_cases he : x = t
        · subst he
          obtain rfl : level = l := by simpa [LogPc.level] using hx
          simpa using hP x level text (by simp)
        · simpa [Function.update_of_ne he] using
            hunder x l (by simpa [Function.update_of_ne he] using hx)
      | @lock t level hpc ho =>
        exact hmove t (.testing level) fun l hl => hunder t l (by rw [hpc]; exact hl)
      | @filter t level hpc hl => exact hmove t .outside fun l hl => by cases hl
      | @pass t level hpc hl =>
        exact hmove t (.formatting level) fun l hl => hunder t l (by rw [hpc]; exact hl)
      | @format t level hpc =>
        exact hmove t (.raw level) fun l hl => hunder t l (by rw [hpc]; exact hl)
      | opened | write | writeErr => exact hunder
      | @refused t time level hpc hs => exact hmove t .unlocking fun l hl => by cases hl
      | @fclose t level f hpc hs hf => exact hmove t .unlocking fun l hl => by cases hl
      | @unlock t hpc => exact hmove t .outside fun l hl => by cases hl
    · rcases List.mem_append.mp hc with hc | hc
      · exact hpassed c hc
      · cases a with
        | test t =>
          simp only [Logger.passed] at hc
          split at hc
          · next level hpc =>
            split_ifs at hc with hl
            · cases hc
            · obtain rfl := List.mem_singleton.mp hc
              exact hunder t level (by rw [hpc]; rfl)
          · cases hc
        | _ => cases hc

end Logger

section Lines

theorem newline_notMem_digits {s : List Byte} (h : s.all isdigit = true) : newline ∉ s :=
  fun hmem => absurd (List.all_eq_true.mp h newline hmem) (by decide)

theorem newline_notMem_printed (n : ℕ) : newline ∉ printed n :=
  newline_notMem_digits (isDigits_printed n).2

theorem newline_notMem_padded (width n : ℕ) : newline ∉ padded width n := by
  rw [padded, List.mem_append, not_or]
  refine ⟨fun h => ?_, newline_notMem_printed n⟩
  exact absurd (List.eq_of_mem_replicate h) (by decide)

theorem newline_notMem_stamp (t : Time) : newline ∉ stamp t := by
  simp only [stamp, List.mem_append, not_or, newline_notMem_padded, newline_notMem_printed,
    not_false_eq_true, and_true, true_and]
  decide

/-- A record that is not raw is one line. -/
theorem logRecord_line {tid : ℕ} {time : Time} {level : ℤ} {msg r : List Byte}
    (h : logRecord tid time level msg = some r) (hraw : rawMode level = false)
    (hmsg : newline ∉ msg) : ∃ front, newline ∉ front ∧ r = front ++ [newline] := by
  rw [logRecord, hraw, if_neg Bool.false_ne_true] at h
  obtain ⟨c, hc, h⟩ := Option.map_eq_some_iff.mp h
  have hmark : c ≠ newline := by
    rintro rfl
    have hmem : newline ∈ ascii ".-*#" ++ [0] := List.mem_of_getElem? hc
    exact absurd hmem (by decide)
  have htext : newline ∉ ascii "[" ++ printed tid ++ ascii "] " ++ stamp time ++ ascii " " ++
      [c] ++ ascii " " ++ cstr msg := by
    have hcstr : newline ∉ cstr msg := fun hm => hmsg ((List.takeWhile_sublist _).subset hm)
    simp only [List.mem_append, not_or, newline_notMem_printed, newline_notMem_stamp, hcstr,
      List.mem_singleton, hmark.symm, not_false_eq_true, and_true]
    decide
  have hansi : newline ∉ ANSI_YELLOW ∧ newline ∉ ANSI_RED ∧ newline ∉ ANSI_RESET := by decide
  simp only at h
  split_ifs at h
  · refine ⟨_, ?_, h.symm⟩
    simp only [List.mem_append, not_or] at htext ⊢
    exact ⟨⟨hansi.1, htext⟩, hansi.2.2⟩
  · refine ⟨_, ?_, h.symm⟩
    simp only [List.mem_append, not_or] at htext ⊢
    exact ⟨⟨hansi.2.1, htext⟩, hansi.2.2⟩
  · exact ⟨_, htext, h.symm⟩

variable [DecidableEq T] {s : Logger T} {tr : List (LoggerAct T)}

/-- Calls whose texts are one line each add one line each to the log file, in the order in which
they got past the level test. -/
theorem Logger.log_lines {s₀ : Logger T} (hs : s₀.Start [])
    (h : (loggerMachine T verbosity gettid []).Run s₀ tr s)
    (hcalls : ∀ t level text, .call t level text ∈ tr → rawMode level = false ∧ newline ∉ text)
    (hidle : s.log.owner = none)
    (hok : ∀ e ∈ (loggerMachine T verbosity gettid []).record Logger.finished s₀ tr,
      e.stream.failed = false) :
    ∃ lines : List (LogCall T × List Byte),
      lines.map Prod.fst =
          (loggerMachine T verbosity gettid []).record (Logger.passed verbosity) s₀ tr ∧
        lines.map Prod.snd = splitLines s.content ∧
        ∀ l ∈ lines, ∃ time, logRecord (gettid l.1.thread) time l.1.level
          (l.1.text.take (MY_MAX_LOGMSG_LEN - 1)) = some l.2 := by
  obtain ⟨hpassed, hsound, hcontent⟩ := log_records hs h
  have hcall := (calls_of_run hs h hcalls).2
  generalize (loggerMachine T verbosity gettid []).record Logger.finished s₀ tr = entries
    at hpassed hsound hcontent hok
  have hpend : s.holderPending = none := by simp [holderPending, hidle]
  have hout : s.holderOut = [] := by simp [holderOut, hidle]
  rw [hpend, Option.toList_none, List.append_nil] at hpassed
  rw [hout, List.append_nil, List.nil_append] at hcontent
  have hfor : ∀ e ∈ entries, e.stream.For gettid e.call ∧ e.stream.out = e.stream.record := by
    intro e he
    rcases hsound e he with ⟨hf, hwhole⟩ | hrefused
    · exact ⟨hf, hwhole (hok e he)⟩
    · have hfail := hok e he
      rw [hrefused] at hfail
      cases hfail
  refine ⟨entries.map fun e => (e.call, e.stream.out), by rw [hpassed, List.map_map]; rfl, ?_, ?_⟩
  · rw [hcontent, splitLines_flatten, List.map_map]
    · rfl
    · intro line hline
      obtain ⟨e, he, rfl⟩ := List.mem_map.mp hline
      obtain ⟨⟨⟨time, hr⟩, -⟩, hwhole⟩ := hfor e he
      obtain ⟨hraw, htext⟩ := hcall e.call (by rw [hpassed]; exact List.mem_map_of_mem he)
      rw [hwhole]
      exact logRecord_line hr hraw fun hm => htext (List.mem_of_mem_take hm)
  · intro l hl
    obtain ⟨e, he, rfl⟩ := List.mem_map.mp hl
    obtain ⟨⟨⟨time, hr⟩, -⟩, hwhole⟩ := hfor e he
    exact ⟨time, by rw [hwhole]; exact hr⟩

theorem Logger.log_lines_chatter :
    ∃ s, (loggerMachine Bool MY_DEBUG (fun _ => 1) []).Run silent chatter s ∧
      ∃ lines : List (LogCall Bool × List Byte),
        lines.map Prod.fst =
            (loggerMachine Bool MY_DEBUG (fun _ => 1) []).record (Logger.passed MY_DEBUG) silent
              chatter ∧
          lines.map Prod.snd = splitLines s.content ∧
          ∀ l ∈ lines, ∃ time, logRecord 1 time l.1.level
            (l.1.text.take (MY_MAX_LOGMSG_LEN - 1)) = some l.2 := by
  have hrun := Machine.Run.of_isSome (M := loggerMachine Bool MY_DEBUG (fun _ => 1) [])
    (s := silent) chatter (by decide)
  refine ⟨_, hrun, log_lines ⟨rfl, fun _ => rfl, rfl⟩ hrun ?_ rfl (by decide)⟩
  intro t level text hmem
  simp only [chatter, List.mem_cons, LoggerAct.call.injEq, reduceCtorEq, List.not_mem_nil,
    or_false] at hmem
  rcases hmem with ⟨-, rfl, rfl⟩ | ⟨-, rfl, rfl⟩ <;> decide

end Lines

end EpollThreads.Logging
