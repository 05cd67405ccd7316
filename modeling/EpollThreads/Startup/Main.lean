import EpollThreads.Config.Range

/-!
# Start-up

`main` from its arguments to the construction of the `ListenThread`. The results
of `getopt` and `fork` are given. `configfile` holds 1023 bytes and a NUL; what a
longer `strcpy` does is not modelled.
-/

namespace EpollThreads.Startup

open Foundations Config

/-- What `getopt(argc, argv, "c:")` returns as long as it does not return -1. -/
inductive Opt
  | c (optarg : List Byte)
  | other
  deriving DecidableEq, Repr

/-- How far one process comes in `main`. -/
inductive Progress
  | usage
  | overrun
  | badConfig (s : Loading)
  | blocked (s : Loading)
  | parentExits (s : Loading)
  | listenThread (s : Loading)
  deriving DecidableEq, Repr

/-- The option loop, from the present content of `configfile`. -/
def configFile : List Byte → List Opt → Except Progress (List Byte)
  | configfile, [] => .ok configfile
  | _, .c optarg :: opts =>
      if optarg.length < MIN_BUFSZ then configFile optarg opts else .error .overrun
  | _, .other :: _ => .error .usage

/-- After the configuration is read: the parent of a daemon exits, everybody else goes on
to `new ListenThread()`. -/
def afterLoad (fork : ℤ) : LoadResult → Progress
  | .blocked s => .blocked s
  | .returned nRet s =>
      if nRet = -1 then .badConfig s
      else if s.g.daemonize ≠ 0 ∧ fork ≠ 0 then .parentExits s
      else .listenThread s

def main (files : Files) (argc : ℤ) (opts : List Opt) (fork : ℤ) : Progress :=
  if argc ≠ 3 then .usage
  else match configFile [] opts with
    | .error e => e
    | .ok configfile =>
        afterLoad fork (loadServerConfig files (some configfile) initServerConfig)

theorem configFile_ne_listenThread {configfile : List Byte} {opts : List Opt} {s : Loading} :
    configFile configfile opts ≠ .error (.listenThread s) := by
  induction opts generalizing configfile with
  | nil => simp [configFile]
  | cons opt opts ih =>
    cases opt with
    | other => simp [configFile]
    | c optarg =>
      rw [configFile]
      split_ifs
      · exact ih
      · simp

theorem returned_zero {o : Outcome} {nRet : ℤ} {s : Loading} (h : o.result = .returned nRet s)
    (hne : nRet ≠ -1) : nRet = 0 := by
  cases o with
  | next s' => exact (LoadResult.returned.inj h).1.symm
  | fail s' => exact absurd (LoadResult.returned.inj h).1.symm hne
  | blocked s' => cases h

theorem load_returned_zero {files : Files} {filename : Option (List Byte)} {g : SERVER}
    {nRet : ℤ} {s : Loading} (h : loadServerConfig files filename g = .returned nRet s)
    (hne : nRet ≠ -1) : nRet = 0 := by
  unfold loadServerConfig at h
  simp only at h
  split at h
  · exact returned_zero h hne
  · split at h <;> exact returned_zero h hne

theorem load_of_listenThread {files : Files} {argc fork : ℤ} {opts : List Opt} {s : Loading}
    (h : main files argc opts fork = .listenThread s) :
    ∃ configfile, loadServerConfig files (some configfile) initServerConfig = .returned 0 s := by
  unfold main at h
  split_ifs at h
  cases hc : configFile [] opts with
  | error e =>
    simp only [hc] at h
    exact absurd (h ▸ hc) configFile_ne_listenThread
  | ok configfile =>
    simp only [hc] at h
    refine ⟨configfile, ?_⟩
    cases hload : loadServerConfig files (some configfile) initServerConfig with
    | blocked s' =>
      rw [hload] at h
      cases h
    | returned nRet s' =>
      rw [hload, afterLoad] at h
      split_ifs at h with hfail
      obtain rfl := Progress.listenThread.inj h
      rw [load_returned_zero hload hfail]

/-- A load that returns 0 has read a file. -/
theorem accepts_of_returned {files : Files} {filename : Option (List Byte)} {s : Loading}
    (h : loadServerConfig files filename initServerConfig = .returned 0 s) :
    ∃ content, Accepts files content s.g := by
  have hfail : ∀ {s' : Loading} {m : Message}, (s'.say m .fail).result ≠ .returned 0 s := by
    intro s' m hr
    cases ho : s'.say m .fail with
    | next s₁ => exact Loading.say_fail_ne_next ho
    | fail s₁ | blocked s₁ =>
      rw [ho] at hr
      simp [Outcome.result] at hr
  cases filename with
  | none =>
    simp only [loadServerConfig] at h
    exact absurd h hfail
  | some path =>
    cases hread : files.read path with
    | none =>
      simp only [loadServerConfig, hread] at h
      exact absurd h hfail
    | some content => exact ⟨content, path, s, hread, h, rfl⟩

/-- Every load that returns 0 leaves valid settings, and only then does `main` construct
the `ListenThread`. -/
theorem valid_at_startup :
    (∀ files filename s, loadServerConfig files filename initServerConfig = .returned 0 s →
      s.g.Valid) ∧
    ∀ files argc opts fork s, main files argc opts fork = .listenThread s →
      ∃ configfile,
        loadServerConfig files (some configfile) initServerConfig = .returned 0 s := by
  constructor
  · intro files filename s h
    obtain ⟨content, haccepts⟩ := accepts_of_returned h
    exact haccepts.valid
  · intro files argc opts fork s h
    exact load_of_listenThread h

theorem valid_at_startup_port :
    ∃ s, main (oneFile "port 80\n") 3 [.c (ascii "f")] 0 = .listenThread s ∧ s.g.Valid :=
  ⟨_, rfl, valid_at_startup.1 (oneFile "port 80\n") (some (ascii "f")) _ rfl⟩

end EpollThreads.Startup
