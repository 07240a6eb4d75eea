/-
What every run of `send_all` (`util.c`) hands to the descriptor: the calls of
`write` it makes, what each is offered, and how the run ends.
-/
import SecureProxy.Socket

namespace SecureProxy

open Bytes

/-- How many of `len` bytes a call accepts with the answer it gets. -/
def WriteOutcome.accepts (len : Nat) : Option WriteOutcome → Nat
  | none => len
  | some (.ret n) => min n len
  | some .eintr | some .err => 0

/-- The last call of a run was answered `o`. -/
def SendResult.Last (writes : List WriteOutcome) (r : SendResult) (o : WriteOutcome) : Prop :=
  ∃ n, r.calls.length = n + 1 ∧ writes[n]? = some o

/-- How a run with `total` bytes out and `buf` to go can end. -/
inductive SendEnd (total : Nat) (buf : List Byte) (writes : List WriteOutcome) (r : SendResult) : Prop
  | whole : acceptedBytes r.calls = buf → r.rc = some (total + buf.length) → SendEnd total buf writes r
  | stopped : (acceptedBytes r.calls).length < buf.length → r.rc = some (total + (acceptedBytes r.calls).length) →
      r.Last writes (.ret 0) → SendEnd total buf writes r
  | failed : (acceptedBytes r.calls).length < buf.length → r.rc = none → r.Last writes .err → SendEnd total buf writes r

/-- Call by call: each is offered all that has not been accepted before it. -/
structure SendRun (total : Nat) (buf : List Byte) (writes : List WriteOutcome) (r : SendResult) : Prop where
  offered : ∀ (k : Nat) (c : WriteCall), r.calls[k]? = some c →
    c.offered ≠ [] ∧ c.offered = buf.drop (acceptedBytes (r.calls.take k)).length
  accepted : ∀ (k : Nat) (c : WriteCall), r.calls[k]? = some c →
    c.accepted = WriteOutcome.accepts c.offered.length writes[k]?
  ending : SendEnd total buf writes r

theorem acceptedBytes_cons (c : WriteCall) (calls : List WriteCall) :
    acceptedBytes (c :: calls) = c.offered.take c.accepted ++ acceptedBytes calls := rfl

variable {total : Nat} {buf : List Byte} {writes : List WriteOutcome} {r : SendResult} {o : WriteOutcome}

/-- Nothing is left to be sent. -/
theorem SendRun.nil (rest : List WriteOutcome) : SendRun total [] writes ⟨some total, [], rest⟩ where
  offered := by simp
  accepted := by simp
  ending := .whole rfl rfl

/-- A run of one call. -/
theorem SendRun.single {k : Nat} {rc : Option Nat} {rest : List WriteOutcome} (hbuf : buf ≠ [])
    (hk : k = WriteOutcome.accepts buf.length writes[0]?) (hend : SendEnd total buf writes ⟨rc, [⟨buf, k⟩], rest⟩) :
    SendRun total buf writes ⟨rc, [⟨buf, k⟩], rest⟩ := by
  refine ⟨fun j c hc => ?_, fun j c hc => ?_, hend⟩
  · obtain ⟨rfl, rfl⟩ : j = 0 ∧ ⟨buf, k⟩ = c := by cases j <;> simp_all
    exact ⟨hbuf, rfl⟩
  · obtain ⟨rfl, rfl⟩ : j = 0 ∧ ⟨buf, k⟩ = c := by cases j <;> simp_all
    exact hk

/-- What is out after a call, and then others on what it left. -/
theorem length_acceptedBytes_cons {k : Nat} (hle : k ≤ buf.length) (calls : List WriteCall) :
    (acceptedBytes (⟨buf, k⟩ :: calls)).length = k + (acceptedBytes calls).length := by
  rw [acceptedBytes_cons, List.length_append, List.length_take, Nat.min_eq_left hle]

theorem SendEnd.cons {k : Nat} (h : SendEnd (total + k) (buf.drop k) writes r) (hle : k ≤ buf.length) :
    SendEnd total buf (o :: writes) { r with calls := ⟨buf, k⟩ :: r.calls } := by
  have hlen := length_acceptedBytes_cons hle r.calls
  cases h with
  | whole hall hrc =>
    refine .whole ?_ ?_
    · show acceptedBytes (⟨buf, k⟩ :: r.calls) = buf
      rw [acceptedBytes_cons, hall, List.take_append_drop]
    · show r.rc = _
      rw [hrc, List.length_drop]
      congr 1
      omega
  | stopped hlt hrc hlast =>
    rw [List.length_drop] at hlt
    obtain ⟨n, hn, hw⟩ := hlast
    refine .stopped ?_ ?_ ⟨n + 1, by simp [hn], by simpa using hw⟩
    · show (acceptedBytes (⟨buf, k⟩ :: r.calls)).length < buf.length
      omega
    · show r.rc = some (total + (acceptedBytes (⟨buf, k⟩ :: r.calls)).length)
      rw [hrc, hlen, Nat.add_assoc]
  | failed hlt hrc hlast =>
    rw [List.length_drop] at hlt
    obtain ⟨n, hn, hw⟩ := hlast
    refine .failed ?_ hrc ⟨n + 1, by simp [hn], by simpa using hw⟩
    show (acceptedBytes (⟨buf, k⟩ :: r.calls)).length < buf.length
    omega

/-- A call that the loop goes on behind: the rest is a run on what it left. -/
theorem SendRun.cons {k : Nat} (h : SendRun (total + k) (buf.drop k) writes r) (hbuf : buf ≠ [])
    (hk : k = WriteOutcome.accepts buf.length (some o)) (hle : k ≤ buf.length) :
    SendRun total buf (o :: writes) { r with calls := ⟨buf, k⟩ :: r.calls } := by
  refine ⟨fun j c hc => ?_, fun j c hc => ?_, h.ending.cons hle⟩
  · cases j with
    | zero =>
      simp only [List.getElem?_cons_zero, Option.some.injEq] at hc
      subst hc
      exact ⟨hbuf, rfl⟩
    | succ j =>
      obtain ⟨hne, hoff⟩ := h.offered j c hc
      refine ⟨hne, ?_⟩
      rw [hoff, List.drop_drop, List.take_succ_cons, length_acceptedBytes_cons hle]
  · cases j with
    | zero =>
      simp only [List.getElem?_cons_zero, Option.some.injEq] at hc
      subst hc
      exact hk
    | succ j => exact h.accepted j c hc

/-- Every run of the loop, by induction on the answers. -/
theorem sendAllLoop_run (total : Nat) (buf : List Byte) (writes : List WriteOutcome) :
    SendRun total buf writes (sendAllLoop total buf writes) := by
  induction writes generalizing total buf with
  | nil =>
    by_cases hbuf : buf = []
    · subst hbuf
      exact .nil _
    · have hloop : sendAllLoop total buf [] = ⟨some (total + buf.length), [⟨buf, buf.length⟩], []⟩ := by
        simp [sendAllLoop, hbuf]
      rw [hloop]
      exact .single hbuf rfl (.whole (by simp [acceptedBytes]) rfl)
  | cons o os ih =>
    by_cases hbuf : buf = []
    · subst hbuf
      exact .nil _
    · have hpos : 0 < buf.length := List.length_pos_iff.2 hbuf
      have hb : buf.isEmpty = false := by simpa using hbuf
      unfold sendAllLoop
      rw [hb, if_neg Bool.false_ne_true]
      cases o with
      | eintr => exact SendRun.cons (k := 0) (ih total buf) hbuf rfl (Nat.zero_le _)
      | err => exact .single hbuf rfl (.failed (by simpa [acceptedBytes] using hpos) rfl ⟨0, rfl, rfl⟩)
      | ret n =>
        dsimp only
        split
        · rename_i hn
          obtain rfl : n = 0 := by omega
          exact .single hbuf (by simp [WriteOutcome.accepts])
            (.stopped (by simpa [acceptedBytes] using hpos) (by simp [acceptedBytes]) ⟨0, rfl, rfl⟩)
        · exact (ih (total + min n buf.length) (buf.drop (min n buf.length))).cons hbuf rfl (Nat.min_le_right _ _)

/-- At no time is anything but the beginning of the buffer out. -/
theorem SendRun.inOrder (h : SendRun total buf writes r) (k : Nat) : acceptedBytes (r.calls.take k) <+: buf := by
  induction k with
  | zero => exact List.nil_prefix
  | succ k ih =>
    rw [List.take_add_one]
    cases hc : r.calls[k]? with
    | none => simpa using ih
    | some c =>
      have hbuf : acceptedBytes (r.calls.take k) ++ c.offered = buf := by
        rw [(h.offered k c hc).2]
        exact List.prefix_append_drop ih |>.symm
      have hout : acceptedBytes (r.calls.take k ++ (some c).toList) =
          acceptedBytes (r.calls.take k) ++ c.offered.take c.accepted := by simp [acceptedBytes]
      rw [hout, ← hbuf]
      exact (List.prefix_append_right_inj _).2 (List.take_prefix _ _)

/-- What `send_all` promises of a run. -/
structure SendsInOrder (buf : List Byte) (writes : List WriteOutcome) (r : SendResult) : Prop where
  /-- The `k`-th call is offered what the calls before it have left, and gets the `k`-th answer. -/
  calls : ∀ (k : Nat) (c : WriteCall), r.calls[k]? = some c → c.offered ≠ [] ∧
    c.offered = buf.drop (acceptedBytes (r.calls.take k)).length ∧
    c.accepted = WriteOutcome.accepts c.offered.length writes[k]?
  inOrder : ∀ k, acceptedBytes (r.calls.take k) <+: buf
  all : r.rc = some buf.length ↔ acceptedBytes r.calls = buf
  count : ∀ n, r.rc = some n → n = (acceptedBytes r.calls).length
  short : ∀ n, r.rc = some n → n < buf.length → r.Last writes (.ret 0)
  failed : r.rc = none → r.Last writes .err

theorem sendAll_inOrder (buf : List Byte) (writes : List WriteOutcome) :
    SendsInOrder buf writes (sendAll buf writes) := by
  have h : SendRun 0 buf writes (sendAll buf writes) := sendAllLoop_run 0 buf writes
  have hcalls := fun k c hc => (h.offered k c hc).imp_right fun hoff => And.intro hoff (h.accepted k c hc)
  cases h.ending with
  | whole hall hrc =>
    rw [Nat.zero_add] at hrc
    refine ⟨hcalls, h.inOrder, ⟨fun _ => hall, fun _ => hrc⟩, fun n hn => ?_, fun n hn hlt => ?_, fun hn => ?_⟩
    · rw [hall]
      exact Option.some.inj (hn.symm.trans hrc)
    · rw [hrc, Option.some.injEq] at hn
      omega
    · rw [hrc] at hn
      cases hn
  | stopped hlt hrc hlast =>
    rw [Nat.zero_add] at hrc
    refine ⟨hcalls, h.inOrder, ⟨fun hn => ?_, fun hall => ?_⟩, fun n hn => ?_, fun _ _ _ => hlast, fun hn => ?_⟩
    · rw [hrc, Option.some.injEq] at hn
      omega
    · rw [hall] at hlt
      exact absurd hlt (Nat.lt_irrefl _)
    · exact Option.some.inj (hn.symm.trans hrc)
    · rw [hrc] at hn
      cases hn
  | failed hlt hrc hlast =>
    refine ⟨hcalls, h.inOrder, ⟨fun hn => ?_, fun hall => ?_⟩, fun n hn => ?_, fun n hn => ?_, fun _ => hlast⟩
    · rw [hrc] at hn
      cases hn
    · rw [hall] at hlt
      exact absurd hlt (Nat.lt_irrefl _)
    · rw [hrc] at hn
      cases hn
    · rw [hrc] at hn
      cases hn

end SecureProxy
