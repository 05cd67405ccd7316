import EpollThreads.Config.Range

/-!
# Worker capacity

`GetWorkerCapacity` of the server and of the test client: the descriptors that
the soft limit leaves over, halved and divided among the threads. Both narrow
the 64-bit limit to `int`; the client takes its thread count from the command
line without a check.
-/

namespace EpollThreads.Startup

open Foundations Config

/-- The result of an `int` operation; a result that is no `int` is undefined behaviour. -/
def signed (x : ℤ) : Option ℤ := if -2 ^ 31 ≤ x ∧ x < 2 ^ 31 then some x else none

/-- The common computation; `reserved` counts the descriptors kept apart from the
threads' own. -/
def workerCapacity (reserved threads : ℤ) (rlim_cur : UInt64) : Option ℤ := do
  let max := toInt rlim_cur.toNat
  let needed ← signed (reserved + threads)
  let avl ← signed (max - needed)
  if threads = 0 then none else some ((avl.tdiv 2).tdiv threads)

/-- `ListenThread::GetWorkerCapacity` -/
def GetWorkerCapacity (g : SERVER) (rlim_cur : UInt64) : Option ℤ :=
  workerCapacity (3 + 1) g.maxthreads rlim_cur

/-- `GetWorkerCapacity` of the test client. -/
def testGetWorkerCapacity (threads : ℤ) (rlim_cur : UInt64) : Option ℤ :=
  workerCapacity 1 threads rlim_cur

section CommandLine

/-- The value of a digit, up to base 16. -/
def digitValue (b : Byte) : Option ℕ :=
  if isdigit b then some (b.toNat - 48)
  else if 97 ≤ tolower b ∧ tolower b ≤ 102 then some ((tolower b).toNat - 87)
  else none

def numeralIn (base : ℕ) : ℕ → List Byte → ℕ
  | n, [] => n
  | n, b :: s =>
      match digitValue b with
      | none => n
      | some d => if d < base then numeralIn base (base * n + d) s else n

/-- The base is in the prefix. -/
def magnitude : List Byte → ℕ
  | 48 :: x :: d :: s =>
      if tolower x = 120 ∧ (digitValue d).isSome then numeralIn 16 0 (d :: s)
      else numeralIn 8 0 (x :: d :: s)
  | 48 :: s => numeralIn 8 0 s
  | s => numeralIn 10 0 s

/-- `strtoul(s, NULL, 0)` with a 64-bit `unsigned long`. -/
def strtoul (s : List Byte) : ℕ :=
  let narrow (n : ℕ) (negated : ℕ) : ℕ := if n < 2 ^ 64 then negated else 2 ^ 64 - 1
  match s.dropWhile isspace with
  | 45 :: digits => narrow (magnitude digits) ((2 ^ 64 - magnitude digits) % 2 ^ 64)
  | 43 :: digits => narrow (magnitude digits) (magnitude digits)
  | digits => narrow (magnitude digits) (magnitude digits)

/-- `threads` in the client's `main`, from the last `-t` argument if there is one. -/
def clientThreads (optarg : Option (List Byte)) : ℤ :=
  match optarg with
  | none => 0
  | some optarg => toInt (strtoul optarg)

end CommandLine

/-- A size for `epoll_create` and the event array, within the limit. -/
def Usable (reserved threads : ℤ) (rlim_cur : UInt64) (capacity : Option ℤ) : Prop :=
  ∃ c, capacity = some c ∧ 1 ≤ c ∧ 2 * c * threads + (reserved + threads) ≤ rlim_cur.toNat

section Division

theorem signed_eq_some {x y : ℤ} : signed x = some y ↔ (-2 ^ 31 ≤ x ∧ x < 2 ^ 31) ∧ x = y := by
  unfold signed
  split_ifs with h
  · rw [Option.some.injEq, and_iff_right h]
  · exact iff_of_false (by simp) fun hs => h hs.1

theorem workerCapacity_eq_some {reserved threads c : ℤ} {rlim_cur : UInt64} :
    workerCapacity reserved threads rlim_cur = some c ↔
      (-2 ^ 31 ≤ reserved + threads ∧ reserved + threads < 2 ^ 31) ∧
      (-2 ^ 31 ≤ toInt rlim_cur.toNat - (reserved + threads) ∧
        toInt rlim_cur.toNat - (reserved + threads) < 2 ^ 31) ∧
      threads ≠ 0 ∧
      ((toInt rlim_cur.toNat - (reserved + threads)).tdiv 2).tdiv threads = c := by
  simp only [workerCapacity, Option.bind_eq_bind, Option.bind_eq_some_iff, signed_eq_some]
  constructor
  · rintro ⟨_, ⟨hneed, rfl⟩, _, ⟨havl, rfl⟩, h⟩
    split_ifs at h with hzero
    exact ⟨hneed, havl, hzero, Option.some.inj h⟩
  · rintro ⟨hneed, havl, hzero, rfl⟩
    exact ⟨_, ⟨hneed, rfl⟩, _, ⟨havl, rfl⟩, if_neg hzero⟩

theorem toInt_range (x : ℤ) : -2 ^ 31 ≤ toInt x ∧ toInt x < 2 ^ 31 := by
  rw [toInt, Int.bmod_def]
  split_ifs <;> omega

theorem toInt_le {x : ℤ} (h : 0 ≤ x) : toInt x ≤ x := by
  rw [toInt, Int.bmod_def]
  split_ifs <;> omega

variable {avl threads : ℤ}

theorem one_le_share (h : 0 < threads) :
    1 ≤ (avl.tdiv 2).tdiv threads ↔ 2 * threads ≤ avl := by
  rcases le_or_gt 0 avl with hpos | hneg
  · rw [Int.tdiv_eq_ediv_of_nonneg hpos, Int.tdiv_eq_ediv_of_nonneg (by omega),
      Int.le_ediv_iff_mul_le h]
    omega
  · have hhalf : avl.tdiv 2 ≤ 0 := by
      rw [← neg_nonneg, ← Int.neg_tdiv]
      exact Int.tdiv_nonneg (by omega) (by omega)
    have hshare : (avl.tdiv 2).tdiv threads ≤ 0 := by
      rw [← neg_nonneg, ← Int.neg_tdiv]
      exact Int.tdiv_nonneg (by omega) h.le
    omega

/-- The shares of all threads, doubled, are within what is left. -/
theorem double_share_le (h : 0 < threads) (havl : 0 ≤ avl) :
    2 * (avl.tdiv 2).tdiv threads * threads ≤ avl := by
  rw [Int.tdiv_eq_ediv_of_nonneg havl, Int.tdiv_eq_ediv_of_nonneg (by omega)]
  have hmul : avl / 2 / threads * threads ≤ avl / 2 := Int.ediv_mul_le _ h.ne'
  calc 2 * (avl / 2 / threads) * threads = 2 * (avl / 2 / threads * threads) := by ring
    _ ≤ 2 * (avl / 2) := by omega
    _ ≤ avl := by omega

theorem share_neg : ((-avl).tdiv 2).tdiv (-threads) = (avl.tdiv 2).tdiv threads := by
  rw [Int.neg_tdiv, Int.neg_tdiv_neg]

end Division

section Usability

variable {reserved threads : ℤ} {rlim_cur : UInt64}

/-- A worker gets something exactly if there are three descriptors for each and the reserve. -/
theorem workerCapacity_pos {c : ℤ} (h : 0 < threads)
    (hc : workerCapacity reserved threads rlim_cur = some c) :
    0 < c ↔ 3 * threads + reserved ≤ toInt rlim_cur.toNat := by
  obtain ⟨-, -, -, rfl⟩ := workerCapacity_eq_some.mp hc
  rw [Int.lt_iff_add_one_le, zero_add, one_le_share h]
  omega

theorem usable_of_pos (hr : 0 ≤ reserved) (h : 0 < threads) :
    Usable reserved threads rlim_cur (workerCapacity reserved threads rlim_cur) ↔
      3 * threads + reserved ≤ toInt rlim_cur.toNat := by
  obtain ⟨hlow, hhigh⟩ := toInt_range rlim_cur.toNat
  constructor
  · rintro ⟨c, hc, hone, -⟩
    exact (workerCapacity_pos h hc).mp hone
  · intro hle
    refine ⟨_, workerCapacity_eq_some.mpr ⟨by omega, by omega, h.ne', rfl⟩, ?_, ?_⟩
    · rw [one_le_share h]
      omega
    · have hleft : 0 ≤ toInt rlim_cur.toNat - (reserved + threads) := by omega
      have hshare := double_share_le h hleft
      have hlimit := toInt_le (Int.natCast_nonneg rlim_cur.toNat)
      omega

theorem usable_of_neg (hr : reserved = 1) (h : threads < 0) (hlow : -2 ^ 31 ≤ threads) :
    Usable reserved threads rlim_cur (workerCapacity reserved threads rlim_cur) ↔
      toInt rlim_cur.toNat ≤ 3 * threads + reserved ∧
        -2 ^ 31 ≤ toInt rlim_cur.toNat - (reserved + threads) := by
  have hneg : 0 < -threads := by omega
  obtain ⟨-, hhigh⟩ := toInt_range rlim_cur.toNat
  constructor
  · rintro ⟨c, hc, hone, -⟩
    obtain ⟨-, ⟨hdiff, -⟩, -, rfl⟩ := workerCapacity_eq_some.mp hc
    rw [← share_neg, one_le_share hneg] at hone
    omega
  · rintro ⟨hle, hdiff⟩
    refine ⟨_, workerCapacity_eq_some.mpr ⟨by omega, by omega, h.ne, rfl⟩, ?_, ?_⟩
    · rw [← share_neg, one_le_share hneg]
      omega
    · have hone : 1 ≤ ((toInt rlim_cur.toNat - (reserved + threads)).tdiv 2).tdiv threads := by
        rw [← share_neg, one_le_share hneg]
        omega
      nlinarith

end Usability

/-- Both capacities are usable exactly if the limit, as an `int`, has three descriptors for
each thread and the reserve; for the client also where count and difference are negative. -/
theorem capacity_usable (files : Files) (content : List Byte) (g : SERVER)
    (optarg : Option (List Byte)) (rlim_cur : UInt64) :
    (Accepts files content g →
      (Usable (3 + 1) g.maxthreads rlim_cur (GetWorkerCapacity g rlim_cur) ↔
        3 * g.maxthreads + 4 ≤ toInt rlim_cur.toNat)) ∧
    (Usable 1 (clientThreads optarg) rlim_cur
        (testGetWorkerCapacity (clientThreads optarg) rlim_cur) ↔
      (1 ≤ clientThreads optarg ∧ 3 * clientThreads optarg + 1 ≤ toInt rlim_cur.toNat) ∨
      (clientThreads optarg < 0 ∧ toInt rlim_cur.toNat ≤ 3 * clientThreads optarg + 1 ∧
        -2 ^ 31 ≤ toInt rlim_cur.toNat - (1 + clientThreads optarg))) := by
  constructor
  · intro h
    have hthreads : 0 < g.maxthreads := h.inRange.maxthreads
    exact usable_of_pos (by omega) hthreads
  · have hlow : -2 ^ 31 ≤ clientThreads optarg := by
      cases optarg with
      | none => decide
      | some optarg => exact (toInt_range _).1
    unfold testGetWorkerCapacity
    rcases lt_trichotomy (clientThreads optarg) 0 with hneg | hzero | hpos
    · rw [usable_of_neg rfl hneg hlow]
      omega
    · refine iff_of_false ?_ (by omega)
      rintro ⟨c, hc, -⟩
      exact (workerCapacity_eq_some.mp hc).2.2.1 hzero
    · rw [usable_of_pos (by omega) hpos]
      omega

theorem capacity_usable_default :
    Usable (3 + 1) initServerConfig.maxthreads 1024 (GetWorkerCapacity initServerConfig 1024) ∧
      Usable 1 (clientThreads (some (ascii "4"))) 1024
        (testGetWorkerCapacity (clientThreads (some (ascii "4"))) 1024) := by
  obtain ⟨hserver, hclient⟩ :=
    capacity_usable (oneFile "") [] initServerConfig (some (ascii "4")) 1024
  exact ⟨(hserver ⟨[], _, rfl, rfl, rfl⟩).mpr (by decide), hclient.mpr (by decide)⟩

/-- The default ten threads get no capacity from a limit of 32, and a client without a
number of threads divides by zero. -/
theorem not_capacity_usable :
    (¬∀ (files : Files) (content : List Byte) (g : SERVER) (rlim_cur : UInt64),
      Accepts files content g →
        Usable (3 + 1) g.maxthreads rlim_cur (GetWorkerCapacity g rlim_cur)) ∧
    ¬∀ (optarg : Option (List Byte)) (rlim_cur : UInt64),
      Usable 1 (clientThreads optarg) rlim_cur
        (testGetWorkerCapacity (clientThreads optarg) rlim_cur) := by
  constructor
  · intro h
    obtain ⟨c, hc, hone, -⟩ := h (oneFile "") [] initServerConfig 32 ⟨[], _, rfl, rfl, rfl⟩
    have hzero : GetWorkerCapacity initServerConfig 32 = some 0 := by decide
    obtain rfl := Option.some.inj (hzero.symm.trans hc)
    omega
  · intro h
    obtain ⟨c, hc, -⟩ := h (some (ascii "0")) 1024
    have hnone : testGetWorkerCapacity (clientThreads (some (ascii "0"))) 1024 = none := by decide
    rw [hnone] at hc
    cases hc

end EpollThreads.Startup
