import EpollThreads.Events.Transfer
import EpollThreads.Foundations.Loop

/-!
# A call of `recvn` on the caller's buffer

The loop of `Recvn` with the memory it writes to and with `errno`, which stays
as it is until a `recv` fails. Where a call stands is a function of what the
`recv` calls so far came back with, and this settles when it returns and with
what.
-/

namespace EpollThreads.Events

open Foundations

/-- What a `recv` comes back with; only a failing one sets `errno`. -/
inductive RecvOutcome
  | data (bytes : List Byte)
  | eof
  | fail (errno : ℤ)
  deriving DecidableEq, Repr

namespace RecvOutcome

def result : RecvOutcome → RecvResult
  | .data bytes => .data bytes
  | .eof => .eof
  | .fail _ => .fail

/-- `errno` after the call. -/
def errno (old : ℤ) : RecvOutcome → ℤ
  | .fail e => e
  | _ => old

end RecvOutcome

/-- All bytes that these calls delivered. -/
def delivered (tr : List RecvOutcome) : List Byte := tr.flatMap fun o => received o.result

def errnoAfter (errno : ℤ) (tr : List RecvOutcome) : ℤ := tr.foldl RecvOutcome.errno errno

/-- The kernel writes `bytes` to `buf + offset`. -/
def store (buf : List Byte) (offset : ℕ) (bytes : List Byte) : List Byte :=
  buf.take offset ++ bytes ++ buf.drop (offset + bytes.length)

@[simp] theorem delivered_nil : delivered [] = [] := rfl

@[simp] theorem delivered_append (tr tr' : List RecvOutcome) :
    delivered (tr ++ tr') = delivered tr ++ delivered tr' := by
  simp [delivered]

@[simp] theorem delivered_singleton (o : RecvOutcome) : delivered [o] = received o.result := by
  simp [delivered]

@[simp] theorem errnoAfter_append_singleton (errno : ℤ) (tr : List RecvOutcome) (o : RecvOutcome) :
    errnoAfter errno (tr ++ [o]) = o.errno (errnoAfter errno tr) := by
  simp [errnoAfter]

/-- While only interruptions fail, `errno` is `EINTR` once it was left so or set so. -/
theorem errnoAfter_eq_EINTR_iff {errno : ℤ} {tr : List RecvOutcome}
    (h : ∀ e, .fail e ∈ tr → e = EINTR) :
    errnoAfter errno tr = EINTR ↔ errno = EINTR ∨ .fail EINTR ∈ tr := by
  induction tr using List.reverseRecOn with
  | nil => simp [errnoAfter]
  | append_singleton tr o ih =>
    have hpre : ∀ e, .fail e ∈ tr → e = EINTR := fun e he => h e (by simp [he])
    rw [errnoAfter_append_singleton]
    cases o with
    | fail e =>
      obtain rfl := h e (by simp)
      simp [RecvOutcome.errno]
    | data | eof => simpa [RecvOutcome.errno] using ih hpre

theorem store_zero (buf bytes : List Byte) :
    store buf 0 bytes = bytes ++ buf.drop bytes.length := by
  simp [store]

theorem store_store (buf bytes bytes' : List Byte) :
    store (store buf 0 bytes) bytes.length bytes' = store buf 0 (bytes ++ bytes') := by
  simp [store, List.drop_append]

/-- The variables of `recvn`, the buffer behind `pStr` and the thread's `errno`. -/
structure RecvCall where
  loop : Recvn
  errno : ℤ
  buf : List Byte
  deriving DecidableEq, Repr

namespace RecvCall

def ofLoop (errno : ℤ) (buf : List Byte) : LoopStep Recvn → RecvCall ⊕ (ℤ × List Byte)
  | .again r => .inl ⟨r, errno, buf⟩
  | .done ret => .inr (ret, buf)

def start (nLen : ℕ) (errno : ℤ) (buf : List Byte) : RecvCall ⊕ (ℤ × List Byte) :=
  ofLoop errno buf (Recvn.start nLen).test

/-- One `recv(sockfd, str, n, MSG_NOSIGNAL)` and the rest of the round. -/
def round (c : RecvCall) (o : RecvOutcome) : RecvCall ⊕ (ℤ × List Byte) :=
  ofLoop (o.errno c.errno) (store c.buf c.loop.str.length (received o.result))
    (c.loop.recv o.result (o.errno c.errno))

/-- A `recv` delivers at least one byte and no more than asked for, or fails. -/
def Fits (c : RecvCall) (o : RecvOutcome) : Prop := c.loop.Admits o.result

/-- A count is positive; nothing else is assumed of it. -/
def Positive (_ : RecvCall) (o : RecvOutcome) : Prop := o ≠ .data []

instance (c : RecvCall) (o : RecvOutcome) : Decidable (c.Fits o) :=
  inferInstanceAs (Decidable (c.loop.Admits o.result))

instance (c : RecvCall) (o : RecvOutcome) : Decidable (c.Positive o) :=
  inferInstanceAs (Decidable (o ≠ .data []))

/-- The variables after the calls of `tr`. -/
def after (nLen : ℕ) (errno : ℤ) (buf : List Byte) (tr : List RecvOutcome) : RecvCall :=
  ⟨⟨nLen, toInt nLen - (delivered tr).length, delivered tr⟩, errnoAfter errno tr,
    store buf 0 (delivered tr)⟩

/-- The loop goes round again after this call. -/
def GoesOn (c : RecvCall) : RecvOutcome → Prop
  | .data bytes => (bytes.length : ℤ) < c.loop.n
  | o => o.errno c.errno = EINTR

instance (c : RecvCall) (o : RecvOutcome) : Decidable (c.GoesOn o) := by
  cases o <;> unfold GoesOn <;> infer_instance

variable {nLen : ℕ} {errno : ℤ} {buf : List Byte} {tr : List RecvOutcome}

theorem after_nil : after nLen errno buf [] = ⟨.start nLen, errno, buf⟩ := by
  simp [after, Recvn.start, errnoAfter, store_zero]

theorem start_eq : start nLen errno buf =
    if 0 < toInt nLen then .inl (after nLen errno buf [])
    else .inr ((after nLen errno buf []).loop.result, (after nLen errno buf []).buf) := by
  rw [after_nil]
  by_cases h : 0 < toInt nLen
  · rw [start, Recvn.test_pos (by simpa only [Recvn.start] using h), if_pos h, ofLoop]
  · rw [start, Recvn.test_nonpos (by simpa only [Recvn.start] using h), if_neg h, ofLoop]

@[simp] theorem after_loop : (after nLen errno buf tr).loop =
    ⟨nLen, toInt nLen - (delivered tr).length, delivered tr⟩ := rfl

@[simp] theorem after_errno : (after nLen errno buf tr).errno = errnoAfter errno tr := rfl

@[simp] theorem after_buf : (after nLen errno buf tr).buf = store buf 0 (delivered tr) := rfl

theorem goesOn_data {bytes : List Byte} : (after nLen errno buf tr).GoesOn (.data bytes) ↔
    (bytes.length : ℤ) < toInt nLen - (delivered tr).length := Iff.rfl

theorem GoesOn.room {o : RecvOutcome} (hroom : ((delivered tr).length : ℤ) < toInt nLen)
    (hg : (after nLen errno buf tr).GoesOn o) :
    ((delivered (tr ++ [o])).length : ℤ) < toInt nLen := by
  rw [delivered_append, delivered_singleton]
  cases o with
  | data bytes =>
    have hlt := goesOn_data.mp hg
    simp only [RecvOutcome.result, received, List.length_append]
    push_cast
    omega
  | eof | fail => simpa [RecvOutcome.result, received] using hroom

theorem after_append (o : RecvOutcome) :
    after nLen errno buf (tr ++ [o]) =
      ⟨⟨nLen, toInt nLen - (delivered tr).length - (received o.result).length,
          delivered tr ++ received o.result⟩,
        o.errno (errnoAfter errno tr),
        store (store buf 0 (delivered tr)) (delivered tr).length (received o.result)⟩ := by
  have hn : toInt nLen - (delivered tr ++ received o.result).length =
      toInt nLen - (delivered tr).length - (received o.result).length := by
    rw [List.length_append]
    push_cast
    ring
  simp only [after, delivered_append, delivered_singleton, errnoAfter_append_singleton,
    store_store, hn]

theorem round_after (o : RecvOutcome) :
    (after nLen errno buf tr).round o =
      if (after nLen errno buf tr).GoesOn o then .inl (after nLen errno buf (tr ++ [o]))
      else .inr ((after nLen errno buf (tr ++ [o])).loop.result,
        (after nLen errno buf (tr ++ [o])).buf) := by
  rw [after_append, round, after_loop, after_errno, after_buf]
  cases o with
  | data bytes =>
    simp only [RecvOutcome.result, RecvOutcome.errno, received, Recvn.recv]
    by_cases h : (after nLen errno buf tr).GoesOn (.data bytes)
    · have hlt := goesOn_data.mp h
      rw [if_pos h, Recvn.test_pos (by simp only; omega), ofLoop]
    · have hlt := mt goesOn_data.mpr h
      rw [if_neg h, Recvn.test_nonpos (by simp only; omega), ofLoop]
  | eof =>
    by_cases h : errnoAfter errno tr = EINTR <;>
      simp [GoesOn, RecvOutcome.result, RecvOutcome.errno, received, Recvn.recv, h, ofLoop]
  | fail e =>
    by_cases h : e = EINTR <;>
      simp [GoesOn, RecvOutcome.result, RecvOutcome.errno, received, Recvn.recv, h, ofLoop]

end RecvCall

open RecvCall

/-- `recvn`, when the kernel answers as `admits` says. -/
def recvnLoop (admits : RecvCall → RecvOutcome → Prop) :
    Loop RecvCall RecvOutcome (ℤ × List Byte) :=
  ⟨admits, RecvCall.round⟩

instance (admits : RecvCall → RecvOutcome → Prop) [∀ c o, Decidable (admits c o)] :
    ∀ c o, Decidable ((recvnLoop admits).admits c o) :=
  fun c o => inferInstanceAs (Decidable (admits c o))

section Calls

variable {admits : RecvCall → RecvOutcome → Prop} [∀ c o, Decidable (admits c o)]
  {nLen : ℕ} {errno : ℤ} {buf : List Byte} {tr : List RecvOutcome}

omit [∀ c o, Decidable (admits c o)] in
theorem recvnLoop_round : (recvnLoop admits).round = RecvCall.round := rfl

theorem RecvCall.run_cases {x : RecvCall ⊕ (ℤ × List Byte)}
    (h : (recvnLoop admits).machine.Run (start nLen errno buf) tr x) :
    (x = .inl (after nLen errno buf tr) ∧ 0 < toInt nLen - (delivered tr).length) ∨
    (x = .inr ((after nLen errno buf tr).loop.result, (after nLen errno buf tr).buf) ∧
      ((tr = [] ∧ ¬0 < toInt nLen) ∨ ∃ tr' o, tr = tr' ++ [o] ∧
        0 < toInt nLen - (delivered tr').length ∧ admits (after nLen errno buf tr') o ∧
        ¬(after nLen errno buf tr').GoesOn o)) := by
  generalize hx₀ : start nLen errno buf = x₀ at h
  induction h with
  | nil =>
    rw [start_eq] at hx₀
    subst hx₀
    by_cases hn : 0 < toInt nLen
    · exact Or.inl ⟨if_pos hn, by simpa using hn⟩
    · exact Or.inr ⟨if_neg hn, Or.inl ⟨rfl, hn⟩⟩
  | @snoc y z tr o _ hstep ih =>
    obtain ⟨c, rfl, ha, rfl⟩ := Loop.step_eq_some.mp hstep
    rcases ih with ⟨hc, hroom⟩ | ⟨hc, -⟩
    · obtain rfl := Sum.inl.inj hc
      rw [recvnLoop_round, round_after]
      by_cases hg : (after nLen errno buf tr).GoesOn o
      · rw [if_pos hg]
        exact Or.inl ⟨rfl, sub_pos.mpr (hg.room (sub_pos.mp hroom))⟩
      · rw [if_neg hg]
        exact Or.inr ⟨rfl, Or.inr ⟨tr, o, rfl, hroom, ha, hg⟩⟩
    · cases hc

theorem RecvCall.run_start (hn : 0 < toInt nLen) :
    (recvnLoop admits).machine.Run (start nLen errno buf) [] (.inl (after nLen errno buf [])) := by
  rw [start_eq, if_pos hn]
  exact .nil _

theorem RecvCall.run_recv {o : RecvOutcome}
    (h : (recvnLoop admits).machine.Run (start nLen errno buf) tr (.inl (after nLen errno buf tr)))
    (ha : admits (after nLen errno buf tr) o) :
    (recvnLoop admits).machine.Run (start nLen errno buf) (tr ++ [o])
      (if (after nLen errno buf tr).GoesOn o then .inl (after nLen errno buf (tr ++ [o]))
      else .inr ((after nLen errno buf (tr ++ [o])).loop.result,
        (after nLen errno buf (tr ++ [o])).buf)) :=
  h.snoc (Loop.step_eq_some.mpr ⟨_, rfl, ha, round_after o⟩)

variable {o : ℕ → RecvOutcome}

theorem RecvCall.not_returns_iff (ho : (recvnLoop admits).Feeds (start nLen errno buf) o) :
    ¬(recvnLoop admits).Returns (start nLen errno buf) o ↔
      0 < toInt nLen ∧ ∀ k, (after nLen errno buf (Loop.inputs o k)).GoesOn (o k) := by
  constructor
  · intro hnever
    have hrun : ∀ k, (recvnLoop admits).machine.Run (start nLen errno buf) (Loop.inputs o k)
        (.inl (after nLen errno buf (Loop.inputs o k))) := by
      intro k
      obtain ⟨c, hc⟩ := Loop.running_of_not_returns ho hnever k
      rcases run_cases hc with ⟨he, -⟩ | ⟨he, -⟩
      · exact he ▸ hc
      · cases he
    constructor
    · rcases run_cases (hrun 0) with ⟨-, hn⟩ | ⟨he, -⟩
      · simpa using hn
      · cases he
    · intro k
      by_contra hg
      have hnext := run_recv (hrun k) (ho k _ (hrun k))
      rw [if_neg hg, ← Loop.inputs_succ] at hnext
      cases hnext.functional (hrun (k + 1))
  · rintro ⟨hn, hg⟩
    have hrun : ∀ k, (recvnLoop admits).machine.Run (start nLen errno buf) (Loop.inputs o k)
        (.inl (after nLen errno buf (Loop.inputs o k))) := by
      intro k
      induction k with
      | zero => exact run_start hn
      | succ k ih =>
        have hnext := run_recv ih (ho k _ ih)
        rwa [if_pos (hg k), ← Loop.inputs_succ] at hnext
    exact Loop.not_returns_of_running fun k => ⟨_, hrun k⟩

/-- While only interruptions fail, the end of the stream is read again if `errno` is `EINTR`,
left so by the caller or set by an interrupted call before. -/
theorem RecvCall.goesOn_eof_iff (h : ∀ k e, o k = .fail e → e = EINTR) (k : ℕ) :
    (after nLen errno buf (Loop.inputs o k)).GoesOn .eof ↔
      errno = EINTR ∨ ∃ j < k, o j = .fail EINTR := by
  have hfail : ∀ e, .fail e ∈ Loop.inputs o k → e = EINTR := by
    intro e he
    obtain ⟨j, -, hj⟩ := Loop.mem_inputs.mp he
    exact h j e hj
  rw [← Loop.mem_inputs]
  exact errnoAfter_eq_EINTR_iff hfail

/-- `recvn` returns exactly when the length is not a positive `int`, or enough bytes come, or
a call fails other than by an interruption, or the stream ends while `errno` is not `EINTR`:
neither left so by the caller nor set by an interrupted call before. -/
theorem recvn_returns_iff (hpos : ∀ k, o k ≠ .data []) :
    (recvnLoop Positive).Returns (start nLen errno buf) o ↔
      toInt nLen ≤ 0 ∨ (∃ k, toInt nLen ≤ (delivered (Loop.inputs o k)).length) ∨
      (∃ k e, o k = .fail e ∧ e ≠ EINTR) ∨
      (errno ≠ EINTR ∧ ∃ k, o k = .eof ∧ ∀ j < k, o j ≠ .fail EINTR) := by
  have ho : (recvnLoop Positive).Feeds (start nLen errno buf) o := fun k _ _ => hpos k
  rw [← not_iff_not, not_returns_iff ho]
  push Not
  constructor
  · rintro ⟨hn, hg⟩
    have hEINTR : ∀ k e, o k = .fail e → e = EINTR := by
      intro k e he
      have hgk := hg k
      rwa [he] at hgk
    have hroom : ∀ k, ((delivered (Loop.inputs o k)).length : ℤ) < toInt nLen := by
      intro k
      induction k with
      | zero => simpa using hn
      | succ k ih =>
        rw [Loop.inputs_succ]
        exact (hg k).room ih
    refine ⟨hn, hroom, hEINTR, fun herrno k hk => ?_⟩
    have hgk := hg k
    rw [hk] at hgk
    exact ((goesOn_eof_iff hEINTR k).mp hgk).resolve_left herrno
  · rintro ⟨hn, hroom, hEINTR, heof⟩
    refine ⟨hn, fun k => ?_⟩
    cases hok : o k with
    | data bytes =>
      have hnext := hroom (k + 1)
      rw [Loop.inputs_succ, delivered_append, delivered_singleton, hok] at hnext
      simp only [RecvOutcome.result, received, List.length_append] at hnext
      push_cast at hnext
      rw [goesOn_data]
      omega
    | eof =>
      apply (goesOn_eof_iff hEINTR k).mpr
      by_cases herrno : errno = EINTR
      · exact Or.inl herrno
      · exact Or.inr (heof herrno k hok)
    | fail e => exact hEINTR k e hok

omit [∀ c o, Decidable (admits c o)] in
theorem recvn_returns_iff_eof :
    (recvnLoop Positive).Returns (start 1 0 [0]) (fun _ => .eof) :=
  (recvn_returns_iff (by simp)).mpr (Or.inr (Or.inr (Or.inr ⟨by decide, 0, rfl, by simp⟩)))

/-- With `EINTR` left over from an earlier call, the end of the stream is read for ever. -/
theorem not_recvn_returns :
    ¬∀ (nLen : ℕ) (errno : ℤ) (buf : List Byte) (o : ℕ → RecvOutcome), (∀ k, o k ≠ .data []) →
      {k | o k = .fail EINTR}.Finite → (recvnLoop Positive).Returns (start nLen errno buf) o := by
  intro h
  have hret := h 1 EINTR [0] (fun _ => .eof) (by simp) (by simp)
  have ho : (recvnLoop Positive).Feeds (start 1 EINTR [0]) (fun _ => .eof) :=
    fun k _ _ => by simp [recvnLoop, Positive]
  refine (not_returns_iff ho).mpr ⟨by decide, fun k => ?_⟩ hret
  exact (errnoAfter_eq_EINTR_iff (by simp)).mpr (Or.inl rfl)

theorem toInt_natCast {k : ℕ} (h : k ≤ 2 ^ 31 - 1) : toInt k = k := by
  apply Int.bmod_eq_of_le <;> omega

/-- A call that returns has stored what was delivered, all of it in front of the buffer. -/
theorem RecvCall.run_result (hlen : nLen ≤ 2 ^ 31 - 1) {ret : ℤ} {buf' : List Byte}
    (h : (recvnLoop Fits).machine.Run (start nLen errno buf) tr (.inr (ret, buf'))) :
    ret = (delivered tr).length ∧ (delivered tr).length ≤ nLen ∧
      buf' = store buf 0 (delivered tr) ∧
      ((delivered tr).length < nLen → ∃ o, tr.getLast? = some o ∧
        (∀ bytes, o ≠ .data bytes) ∧ errnoAfter errno tr ≠ EINTR) := by
  rcases run_cases h with ⟨hx, -⟩ | ⟨hx, hlast⟩
  · cases hx
  · simp only [Sum.inr.injEq, Prod.mk.injEq] at hx
    obtain ⟨hret, hstored⟩ := hx
    have hn : toInt nLen = nLen := toInt_natCast hlen
    have hfull : (delivered tr).length ≤ nLen ∧ ((delivered tr).length < nLen →
        ∃ o, tr.getLast? = some o ∧ (∀ bytes, o ≠ .data bytes) ∧
          errnoAfter errno tr ≠ EINTR) := by
      rcases hlast with ⟨rfl, hz⟩ | ⟨tr', o, rfl, hroom, hfits, hg⟩
      · simp only [delivered_nil, List.length_nil]
        exact ⟨Nat.zero_le _, fun hlt => by omega⟩
      · rw [hn] at hroom
        simp only [delivered_append, delivered_singleton, List.length_append]
        cases o with
        | data bytes =>
          have hle : (bytes.length : ℤ) ≤ toInt nLen - (delivered tr').length := hfits.2
          rw [goesOn_data, hn] at hg
          rw [hn] at hle
          simp only [RecvOutcome.result, received]
          exact ⟨by omega, fun hlt => by omega⟩
        | eof | fail =>
          simp only [RecvOutcome.result, received, List.length_nil, Nat.add_zero]
          refine ⟨by omega, fun _ => ⟨_, List.getLast?_concat, by simp, ?_⟩⟩
          rw [errnoAfter_append_singleton]
          exact hg
    have hdiff : (nLen : ℤ) - (nLen - (delivered tr).length) = (delivered tr).length := by ring
    refine ⟨?_, hfull.1, hstored, hfull.2⟩
    rw [hret, Recvn.result, after_loop]
    simp only [hn, hdiff]
    exact toInt_natCast (hfull.1.trans hlen)

/-- `recvn` loses and invents nothing. -/
theorem recvn_exact (hlen : nLen ≤ 2 ^ 31 - 1) (hbuf : nLen ≤ buf.length) {ret : ℤ}
    {buf' : List Byte}
    (h : (recvnLoop Fits).machine.Run (start nLen errno buf) tr (.inr (ret, buf'))) :
    ∃ k : ℕ, ret = k ∧ k ≤ nLen ∧ buf'.take k = delivered tr ∧ buf'.drop k = buf.drop k ∧
      buf'.length = buf.length ∧
      (∀ pre c, (recvnLoop Fits).machine.Run (start nLen errno buf) pre (.inl c) →
        0 < c.loop.n ∧ c.loop.str.length + c.loop.n ≤ nLen) ∧
      (k < nLen → ∃ o, tr.getLast? = some o ∧ (∀ bytes, o ≠ .data bytes) ∧
        errnoAfter errno tr ≠ EINTR) := by
  obtain ⟨hret, hle, rfl, hshort⟩ := run_result hlen h
  refine ⟨(delivered tr).length, hret, hle, ?_, ?_, ?_, ?_, hshort⟩
  · rw [store_zero, List.take_left]
  · rw [store_zero, List.drop_left]
  · rw [store_zero, List.length_append, List.length_drop]
    omega
  · intro pre c hc
    rcases run_cases hc with ⟨hx, hroom⟩ | ⟨hx, -⟩
    · obtain rfl := Sum.inl.inj hx
      have hn : toInt nLen = nLen := toInt_natCast hlen
      simp only [after_loop]
      exact ⟨hroom, by omega⟩
    · cases hx

theorem recvn_exact_short :
    ∃ (ret : ℤ) (buf' : List Byte),
      (recvnLoop Fits).machine.Run (start 4 0 [9, 9, 9, 9, 9])
        [.data [1, 2], .fail EINTR, .data [3], .fail EAGAIN] (.inr (ret, buf')) ∧
      ∃ k : ℕ, ret = k ∧ buf'.take k = [1, 2, 3] ∧ buf'.drop k = [9, 9] := by
  have h : (recvnLoop Fits).machine.Run (start 4 0 [9, 9, 9, 9, 9])
      [.data [1, 2], .fail EINTR, .data [3], .fail EAGAIN] (.inr (3, [1, 2, 3, 9, 9])) :=
    .of_exec (by decide)
  obtain ⟨k, hk, -, htake, hdrop, -⟩ := recvn_exact (by decide) (by decide) h
  obtain rfl : k = 3 := by exact_mod_cast hk.symm
  exact ⟨3, _, h, 3, rfl, htake, hdrop⟩

end Calls

/-- `char sBuf[MIN_BUFSZ] = ""; recvn(sockfd, sBuf, sizeof(sBuf))`, as `iRead` has it. -/
def iReadCall (errno : ℤ) : RecvCall ⊕ (ℤ × List Byte) :=
  start MIN_BUFSZ errno (List.replicate MIN_BUFSZ 0)

theorem store_sBuf_mem {bytes : List Byte} (h : bytes.length ≤ MIN_BUFSZ) :
    (store (List.replicate MIN_BUFSZ 0) 0 bytes).length = MIN_BUFSZ ∧
      (0 ∈ store (List.replicate MIN_BUFSZ 0) 0 bytes ↔ bytes.length < MIN_BUFSZ ∨ 0 ∈ bytes) := by
  rw [store_zero, List.drop_replicate]
  constructor
  · rw [List.length_append, List.length_replicate]
    omega
  · rw [List.mem_append, List.mem_replicate]
    constructor
    · rintro (hmem | ⟨hne, -⟩)
      · exact Or.inr hmem
      · exact Or.inl (by omega)
    · rintro (hlt | hmem)
      · exact Or.inr ⟨by omega, rfl⟩
      · exact Or.inl hmem

theorem mem_zero_iff_index {sBuf : List Byte} (h : sBuf.length = MIN_BUFSZ) :
    0 ∈ sBuf ↔ ∃ i < MIN_BUFSZ, sBuf[i]? = some 0 := by
  rw [List.mem_iff_getElem?]
  constructor
  · rintro ⟨i, hi⟩
    exact ⟨i, h ▸ (List.getElem?_eq_some_iff.mp hi).1, hi⟩
  · rintro ⟨i, -, hi⟩
    exact ⟨i, hi⟩

/-- The buffer `iRead` formats is terminated, and `%s` stays inside it, exactly when fewer
than `MIN_BUFSZ` bytes came or one of them is a NUL. -/
theorem received_text_terminated_iff {errno ret : ℤ} {tr : List RecvOutcome} {sBuf : List Byte}
    (h : (recvnLoop Fits).machine.Run (iReadCall errno) tr (.inr (ret, sBuf))) :
    ((∃ i < MIN_BUFSZ, sBuf[i]? = some 0) ↔
        (delivered tr).length < MIN_BUFSZ ∨ 0 ∈ delivered tr) ∧
      ∀ after, (cstr (sBuf ++ after)).length < MIN_BUFSZ ↔
        (delivered tr).length < MIN_BUFSZ ∨ 0 ∈ delivered tr := by
  obtain ⟨-, hle, hstored, -⟩ := run_result (by decide) h
  obtain ⟨hlen, hmem⟩ := store_sBuf_mem hle
  rw [← hstored] at hlen hmem
  constructor
  · rw [← mem_zero_iff_index hlen, hmem]
  · intro after
    have hread : (cstr (sBuf ++ after)).length < sBuf.length ↔ 0 ∈ sBuf := length_cstr_append_lt
    rwa [hlen, hmem] at hread

theorem received_text_terminated_iff_short :
    ∃ (ret : ℤ) (sBuf : List Byte), (recvnLoop Fits).machine.Run (iReadCall 0)
      [.data [72, 105], .fail EAGAIN] (.inr (ret, sBuf)) ∧ 0 < ret ∧
      ∃ i < MIN_BUFSZ, sBuf[i]? = some 0 := by
  have h₀ : (recvnLoop Fits).machine.Run (iReadCall 0) [] _ := run_start (by decide)
  have h₁ := run_recv h₀ (o := .data [72, 105]) ⟨by decide, by decide⟩
  rw [if_pos (by decide)] at h₁
  have h₂ := run_recv h₁ (o := .fail EAGAIN) trivial
  rw [if_neg (by decide)] at h₂
  have hpos : 0 < (after MIN_BUFSZ 0 (List.replicate MIN_BUFSZ 0)
      ([] ++ [.data [72, 105]] ++ [.fail EAGAIN])).loop.result := by decide
  exact ⟨_, _, h₂, hpos, (received_text_terminated_iff h₂).1.mpr (Or.inl (by decide))⟩

theorem RecvCall.run_full {errno : ℤ} {bytes : List Byte} (hlen : bytes.length = MIN_BUFSZ) :
    (recvnLoop Fits).machine.Run (iReadCall errno) [.data bytes]
      (.inr ((MIN_BUFSZ : ℕ), store (List.replicate MIN_BUFSZ 0) 0 bytes)) := by
  have hn : toInt (MIN_BUFSZ : ℕ) = MIN_BUFSZ := by decide
  have hne : bytes ≠ [] := by
    rintro rfl
    exact absurd hlen (by decide)
  have hfits : (after MIN_BUFSZ errno (List.replicate MIN_BUFSZ 0) []).Fits (.data bytes) := by
    refine ⟨hne, ?_⟩
    rw [after_loop, hn, hlen]
    exact le_rfl
  have hstart : (recvnLoop Fits).machine.Run (iReadCall errno) [] _ := run_start (by decide)
  have hrun := run_recv hstart hfits
  have hdel : delivered [.data bytes] = bytes := by simp [RecvOutcome.result, received]
  rw [if_neg (by rw [goesOn_data, hn, hlen]; exact lt_irrefl _), List.nil_append] at hrun
  obtain ⟨hret, -, hbuf, -⟩ := run_result (by decide) hrun
  rw [hret, hbuf, hdel, hlen] at hrun
  exact hrun

/-- A peer that sends a full buffer without a NUL leaves no terminator. -/
theorem not_received_text_terminated :
    ¬∀ (errno ret : ℤ) (tr : List RecvOutcome) (sBuf : List Byte),
      (recvnLoop Fits).machine.Run (iReadCall errno) tr (.inr (ret, sBuf)) → 0 < ret →
      ∃ i < MIN_BUFSZ, sBuf[i]? = some 0 := by
  intro h
  have hlen : (List.replicate MIN_BUFSZ (65 : Byte)).length = MIN_BUFSZ := List.length_replicate
  have hnul := h 0 _ _ _ (run_full hlen) (by decide)
  rw [← mem_zero_iff_index (store_sBuf_mem hlen.le).1, (store_sBuf_mem hlen.le).2] at hnul
  rcases hnul with hlt | hmem
  · exact absurd hlen hlt.ne
  · exact absurd (List.eq_of_mem_replicate hmem) (by decide)

end EpollThreads.Events
