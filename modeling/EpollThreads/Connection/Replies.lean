import EpollThreads.Connection.PoolEndpoint
import EpollThreads.Connection.Stream

/-!
# What one connection takes and what it answers

Along every run of an endpoint the bytes that were taken are those that arrived,
and the bytes that were sent are whole messages. Every message but the first
is an answer to a byte that was read before.
-/

namespace EpollThreads.Connection

open Foundations Events

/-- The bytes that arrive. -/
def EndpointAct.arrived : EndpointAct → List Byte
  | .arrive bytes => bytes
  | _ => []

namespace Endpoint

variable {role : Role} {sockfd : ℕ} {e e' : Endpoint}

theorem input_step {a : EndpointAct} (ht : Transition role sockfd e a e') :
    input a ++ e'.rcvq = e.rcvq ++ a.arrived := by
  cases a with
  | arrive bytes =>
    cases ht
    rfl
  | _ => simpa [EndpointAct.arrived] using (rcvq_step ht (by simp)).symm

/-- Nothing is lost and nothing comes from elsewhere. -/
theorem input_run {tr : List EndpointAct} (h : (endpointMachine role sockfd).Run e tr e') :
    tr.flatMap input ++ e'.rcvq = e.rcvq ++ tr.flatMap EndpointAct.arrived := by
  induction h with
  | nil => simp
  | snoc _ hstep ih =>
    have hlast := input_step (step_cases hstep)
    simp only [List.flatMap_append, List.flatMap_singleton, List.append_assoc]
    rw [hlast, ← List.append_assoc, ih, List.append_assoc]

theorem flatten_outputs (e : Endpoint) (a : EndpointAct) :
    (e.outputs a).toList.flatten = e.output a := by
  cases a with
  | handle act =>
    cases act with
    | send res errno =>
      cases hpc : e.pc with
      | handling events stage => cases stage <;> simp [outputs, output, hpc]
      | _ => simp [outputs, output, hpc]
    | _ => rfl
  | _ => rfl

theorem got_resume {events : BitVec 32} {p : Pass} (h : ∀ r, p.stage ≠ some (.recvn r)) :
    (e.resume events p).got = [] := by
  cases hs : p.stage with
  | none => simp [got, resume, hs]
  | some stage =>
    cases stage with
    | recvn r => exact (h r hs).elim
    | _ => simp [got, resume, hs]

theorem afterWrite_ne_recvn (events : BitVec 32) (nRet : ℤ) (r : Recvn) :
    afterWrite events nRet ≠ some (.recvn r) := fun h => leaving_afterWrite (.recvn r) h

theorem afterRead_ne_recvn (events : BitVec 32) (nRet : ℤ) (r : Recvn) :
    afterRead events nRet ≠ some (.recvn r) := by
  rcases afterRead_cases events nRet with ⟨-, h⟩ | ⟨-, h⟩ <;> rw [h]
  · simp
  · exact afterWrite_ne_recvn _ _ _

/-- `recvn` gives up what it has stored or adds what it gets. -/
theorem got_step (hw : e.Wf) {a : EndpointAct} (ht : Transition role sockfd e a e') :
    e'.got = [] ∨ e'.got = e.got ++ input a := by
  cases ht with
  | arrive | fin | reset | drainEmpty | drain | wake | skip | add =>
    exact Or.inr (List.append_nil _).symm
  | report => exact Or.inl rfl
  | @begin events nRet hpc =>
    left
    by_cases hin : has events EPOLLIN = true
    · simp [got, resume, beginEvent, hin, Recvn.start]
    · exact got_resume fun r => by simpa [beginEvent, hin] using afterRead_ne_recvn _ _ r
  | @recv events r res errno rcvq hpc ha hq =>
    obtain ⟨hfill, -⟩ := (hw.stage _ _ hpc).1
    rcases ofRecvn_cases hfill ha errno events e.nRet with ⟨r', -, hstr, hp⟩ | ⟨-, hp⟩ | ⟨-, hp⟩ <;>
      rw [hp]
    · right
      simp [got, hpc, hstr, input]
    · exact Or.inl rfl
    · exact Or.inl (got_resume (afterRead_ne_recvn _ _))
  | changeToWrite => exact Or.inl (got_resume (afterRead_ne_recvn _ _))
  | format => exact Or.inl rfl
  | @send events s res errno =>
    left
    refine got_resume fun r => ?_
    cases s.send res errno with
    | again s' => simp [Stage.ofSendn]
    | done bytes =>
      simp only [Stage.ofSendn]
      split
      · exact afterWrite_ne_recvn _ _ r
      · simp
  | changeToRead => exact Or.inl (got_resume (afterWrite_ne_recvn _ _))
  | error | del | dec => exact Or.inl rfl
  | close => exact Or.inl (by cases role <;> rfl)

/-- Every message but the first one is paid for by a byte that was taken. -/
def Paid (role : Role) (e : Endpoint) (k taken : ℕ) : Prop :=
  k + e.got.length ≤ 1 + taken ∧ (e.Active role → k + e.got.length ≤ taken)

theorem Paid.step {k taken : ℕ} (h : e.Paid role k taken) (hw : e.Wf) {a : EndpointAct}
    (hok : a.CtlOk) (ht : Transition role sockfd e a e') :
    e'.Paid role (k + if e.sends e' then 1 else 0) (taken + (input a).length) := by
  obtain ⟨hle, hactive⟩ := h
  by_cases hsends : e.sends e' = true
  · obtain ⟨hbefore, hafter⟩ := sends_iff hsends
    have hnil : e'.got = [] := by
      unfold sends at hsends
      split at hsends
      · rename_i hpc'
        simp [got, hpc']
      · cases hsends
    have hpaid := hactive hbefore
    refine ⟨?_, fun h => (hafter h).elim⟩
    rw [if_pos hsends, hnil, List.length_nil]
    omega
  · rw [if_neg hsends]
    have hgot : e'.got.length ≤ e.got.length + (input a).length := by
      rcases got_step hw ht with h | h <;> simp [h]
    refine ⟨by omega, fun hafter => ?_⟩
    have hback : e.sentAll = true → a ≠ .handle (.mod false) := by
      rintro - rfl
      cases hok
    rcases active_step hw ht hback hafter with hbefore | hreads
    · have hpaid := hactive hbefore
      omega
    · have hlen := List.length_pos_iff.mpr (reads_step hw ht hreads)
      have hnil : e'.got = [] := by
        unfold reads at hreads
        split at hreads
        · rename_i hpc'
          simp [got, hpc']
        · cases hreads
      rw [List.length_append] at hlen
      rw [hnil, List.length_nil]
      omega

/-- From the start on, an endpoint sends whole messages, and only the first one unasked. -/
theorem framed_run {tr : List EndpointAct} (hs : e.Start)
    (h : (endpointMachine role sockfd).Run e tr e') :
    e'.Wf ∧ ∃ k,
      Framed role sockfd e' ((endpointMachine role sockfd).record outputs e tr).flatten k ∧
      ((∀ a ∈ tr, a.CtlOk) → e'.Paid role k (tr.flatMap input).length) := by
  induction h with
  | nil =>
    refine ⟨.of_start hs, 0, (framed_iff ?_).mpr ⟨[], [], rfl, rfl, Or.inl rfl⟩, fun _ => ?_⟩
    · simp [hs.pc]
    · simp [Paid, got, hs.pc]
  | @snoc u v tr a hrun hstep ih =>
    obtain ⟨hw, k, hframed, hpaid⟩ := ih
    have ht := step_cases hstep
    refine ⟨hw.step ht, k + if u.sends v then 1 else 0, ?_, fun hok => ?_⟩
    · rw [hrun.record_snoc, List.flatten_append, flatten_outputs]
      exact hframed.step hw ht
    · simp only [List.mem_append, List.mem_singleton] at hok
      rw [List.flatMap_append, List.length_append, List.flatMap_singleton]
      exact (hpaid fun b hb => hok b (Or.inl hb)).step hw (hok a (Or.inr rfl)) ht

end Endpoint
end EpollThreads.Connection
