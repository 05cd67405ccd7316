import EpollThreads.Foundations.FileTable
import EpollThreads.Startup.ListenDescriptor

/-!
# The descriptors of a daemon

`daemonize` puts `/dev/null` on the three standard descriptors, whichever of them the
process was started with, and keeps no descriptor of its own. So the descriptors that
come after it, up to the listening socket, do not depend on how the daemon was started.
-/

namespace EpollThreads.Startup

open Foundations Config

universe u

variable {F : Type u}

/-- `daemonize` in the child; `null` is `/dev/null` if it can be opened. -/
def daemonize (null : Option F) (t : FileTable F) : FileTable F :=
  match null.bind t.open_ with
  | none => t
  | some (fd, t) =>
    let t := ((t.dup2 fd 0).dup2 fd 1).dup2 fd 2
    if 2 < fd then t.close fd else t

/-- `createPidFile`: its descriptor is closed again. -/
def createPidFile (pidfile : Option F) (t : FileTable F) : FileTable F :=
  match pidfile.bind t.open_ with
  | none => t
  | some (fd, t) => t.close fd

theorem limit_daemonize (null : Option F) (t : FileTable F) :
    (daemonize null t).limit = t.limit := by
  unfold daemonize
  split
  · rfl
  · rename_i fd t' h
    obtain ⟨f, -, hopen⟩ := Option.bind_eq_some_iff.mp h
    have hlimit := congrArg FileTable.limit (FileTable.open_cases hopen).2.2
    split <;> simpa using hlimit

/-- The descriptors that a daemon or another server has at `new ListenThread()`. -/
def descriptorsOf (g : SERVER) (null pidfile : Option F) (t : FileTable F) : FileTable F :=
  if g.daemonize ≠ 0 then createPidFile pidfile (daemonize null t) else t

/-- `new ListenThread()` and then `Bind`, with these descriptors open. -/
def startUpFrom (d : Descriptors) (new : ℤ → Option Block) (memory : ℕ → Address) (net : Net)
    (g : SERVER) (held : Bool) (rlim_cur : UInt64) : Option BindResult := do
  let nCapacity ← GetWorkerCapacity g rlim_cur
  let (_, d, held) ← initTaskThread new g.verbosity memory nCapacity d held g.maxthreads.toNat
  return listenThreadBind { net with socket := d.acquire.1 } g held

theorem createPidFile_eq (pidfile : Option F) (t : FileTable F) : createPidFile pidfile t = t := by
  unfold createPidFile
  split
  · rfl
  · rename_i fd t' h
    obtain ⟨f, -, hopen⟩ := Option.bind_eq_some_iff.mp h
    exact FileTable.close_open hopen

theorem file_standard {t : FileTable F} {f : F} {fd : ℕ} (h : t.file fd = some f) (n : ℕ) :
    (((t.dup2 fd 0).dup2 fd 1).dup2 fd 2).file n =
      if n < 3 ∧ n < t.limit then some f else t.file n := by
  have h₀ := FileTable.file_dup2_self (n := 0) h
  have h₁ := FileTable.file_dup2_self (n := 1) h₀
  rw [FileTable.file_dup2 h₁, FileTable.file_dup2 h₀, FileTable.file_dup2 h]
  simp only [FileTable.limit_dup2]
  by_cases hn : n < 3 ∧ n < t.limit
  · obtain rfl | rfl | rfl : n = 0 ∨ n = 1 ∨ n = 2 := by omega
    all_goals simp [hn.2]
  · rw [if_neg hn, if_neg (by omega), if_neg (by omega), if_neg (by omega)]

/-- Where `/dev/null` can be opened the standard descriptors denote it, and nothing else has
changed. -/
theorem file_daemonize (null : F) (t : FileTable F) (n : ℕ) :
    (daemonize (some null) t).file n =
      if (t.open_ null).isSome ∧ n < 3 ∧ n < t.limit then some null else t.file n := by
  unfold daemonize
  rw [Option.bind_some]
  cases h : t.open_ null with
  | none => simp
  | some r =>
    obtain ⟨fd, t'⟩ := r
    obtain ⟨hlt, hfree, ht⟩ := FileTable.open_cases h
    simp only at hlt hfree ht
    have hfd : t'.file fd = some null := by simp [ht]
    have hlimit : t'.limit = t.limit := by rw [ht]
    have hother (hne : n ≠ fd) : t'.file n = t.file n := by simp [ht, Function.update_of_ne hne]
    have hstandard := file_standard hfd n
    rw [hlimit] at hstandard
    simp only [Option.isSome_some, true_and]
    by_cases hclose : 2 < fd
    · rw [if_pos hclose]
      by_cases hne : n = fd
      · subst hne
        simp [FileTable.close, hfree, show ¬n < 3 by omega]
      · simp only [FileTable.close, Function.update_of_ne hne, hstandard, hother hne]
    · rw [if_neg hclose, hstandard]
      by_cases hne : n = fd
      · subst hne
        rw [if_pos ⟨by omega, hlt⟩, if_pos ⟨by omega, hlt⟩]
      · rw [hother hne]

/-- With nothing open from 3 on, 0, 1 and 2 are what a daemon has open. -/
theorem descriptors_daemonize (null : F) {t : FileTable F} (hlimit : 3 ≤ t.limit)
    (hnone : ∀ n, 3 ≤ n → n < t.limit → t.file n = none) :
    (daemonize (some null) t).descriptors = .first 3 t.limit := by
  rw [FileTable.descriptors, limit_daemonize, Descriptors.first]
  congr 1
  ext n
  rw [Finset.mem_filter, Finset.mem_range, Finset.mem_range, file_daemonize]
  cases hopen : (t.open_ null).isSome with
  | true =>
    by_cases hn : n < 3
    · simp [hn, hn.trans_le hlimit]
    · have hfile := hnone n (not_lt.mp hn)
      simp only [hn, false_and, and_false, if_false, iff_false, not_and, Bool.not_eq_true,
        Option.isSome_eq_false_iff, Option.isNone_iff_eq_none]
      exact hfile
  | false =>
    -- Every number below the limit is in use, so there are only three.
    have hused (k : ℕ) (hk : k < t.limit) : t.file k ≠ none := fun hfree => by
      simp [FileTable.open_isSome (f := null) hk hfree] at hopen
    have hthree : t.limit = 3 := by
      by_contra hne
      have hlt : 3 < t.limit := by omega
      exact hused 3 hlt (hnone 3 le_rfl hlt)
    simp only [Bool.false_eq_true, false_and, if_false, hthree, and_iff_left_iff_imp,
      Option.isSome_iff_ne_none]
    exact fun hn => hused n (hn.trans_eq hthree.symm)

section StartUp

variable {new : ℤ → Option Block} {memory : ℕ → Address} {net : Net} {g : SERVER} {held : Bool}
  {rlim_cur : UInt64}

theorem startUpFrom_first :
    startUpFrom (.first 3 rlim_cur.toNat) new memory net g held rlim_cur =
      startUp new memory net g held rlim_cur := rfl

end StartUp

/-- A daemon has `/dev/null` on the standard descriptors and nothing else has changed. However it
was started, with any of the three closed, it goes on as a server that has them open. -/
theorem daemon_startUp {new : ℤ → Option Block} {memory : ℕ → Address} {net : Net} {g : SERVER}
    {held : Bool} {rlim_cur : UInt64} {null : F} {pidfile : Option F} {t : FileTable F}
    (hdaemon : g.daemonize ≠ 0) (hlimit : t.limit = rlim_cur.toNat) (hthree : 3 ≤ t.limit)
    (hnone : ∀ n, 3 ≤ n → n < t.limit → t.file n = none) :
    (∀ n, (descriptorsOf g (some null) pidfile t).file n =
      if (t.open_ null).isSome ∧ n < 3 then some null else t.file n) ∧
    startUpFrom (descriptorsOf g (some null) pidfile t).descriptors new memory net g held rlim_cur =
      startUp new memory net g held rlim_cur := by
  rw [descriptorsOf, if_pos hdaemon, createPidFile_eq]
  constructor
  · intro n
    rw [file_daemonize]
    congr 1
    rw [eq_iff_iff]
    exact ⟨fun h => ⟨h.1, h.2.1⟩, fun h => ⟨h.1, h.2, h.2.trans_le hthree⟩⟩
  · rw [descriptors_daemonize null hthree hnone, hlimit]
    exact startUpFrom_first

/-- A process whose standard input is closed. -/
def withoutInput : FileTable Bool :=
  ⟨fun n => if n = 1 ∨ n = 2 then some true else none, 1024⟩

theorem daemon_startUp_withoutInput :
    let g := { initServerConfig with daemonize := 1, bindaddr := ascii "127.0.0.1" }
    (∀ n, (descriptorsOf g (some false) none withoutInput).file n =
      if (withoutInput.open_ false).isSome ∧ n < 3 then some false else withoutInput.file n) ∧
    startUpFrom (descriptorsOf g (some false) none withoutInput).descriptors smallSystem.new
        (fun _ => 77) loopback g false 1024 =
      startUp smallSystem.new (fun _ => 77) loopback g false 1024 :=
  daemon_startUp (by decide) rfl (by decide) fun n hn _ =>
    if_neg (by omega)

end EpollThreads.Startup
