/-
What `recv` and `write` may answer, and `send_all` (`util.c`).

The answers of the calls on a descriptor are a list, given in order, and any
list may occur. A list that has run out stands for a peer that takes
everything it is offered and says nothing more, so every loop over one is
total: with the receive timeouts the code sets, a silent peer is `EAGAIN`.
-/
import SecureProxy.Lib.Bytes

namespace SecureProxy

open Bytes

/-- What `recv` can put in a buffer of `cap` bytes. -/
structure Chunk (cap : Nat) where
  bytes : List Byte
  nonempty : bytes ≠ []
  fits : bytes.length ≤ cap
  deriving DecidableEq

/-- What `recv` answers. `eagain` is `EAGAIN` or `EWOULDBLOCK`: the receive
timeout has passed. -/
inductive RecvOutcome (cap : Nat) where
  | data (c : Chunk cap)
  | eof
  | eagain
  | eintr
  | err
  deriving DecidableEq

/-- What `write` answers: a count (at most what was offered), or an error. -/
inductive WriteOutcome where
  | ret (n : Nat)
  | eintr
  | err
  deriving DecidableEq, Repr

/-- One call of `write`: the bytes offered, and how many were accepted. -/
structure WriteCall where
  offered : List Byte
  accepted : Nat
  deriving DecidableEq, Repr

/-- `rc` is the value returned: `none` for -1. -/
structure SendResult where
  rc : Option Nat
  calls : List WriteCall
  rest : List WriteOutcome
  deriving DecidableEq, Repr

/-- The loop of `send_all` with `total` bytes out and `buf` still to go. -/
def sendAllLoop (total : Nat) (buf : List Byte) : List WriteOutcome → SendResult
  | [] => { rc := some (total + buf.length), calls := if buf.isEmpty then [] else [⟨buf, buf.length⟩], rest := [] }
  | o :: os =>
    if buf.isEmpty then { rc := some total, calls := [], rest := o :: os }
    else match o with
      | .eintr =>
        let r := sendAllLoop total buf os
        { r with calls := ⟨buf, 0⟩ :: r.calls }
      | .err => { rc := none, calls := [⟨buf, 0⟩], rest := os }
      | .ret n =>
        let k := min n buf.length
        if k = 0 then { rc := some total, calls := [⟨buf, 0⟩], rest := os }
        else
          let r := sendAllLoop (total + k) (buf.drop k) os
          { r with calls := ⟨buf, k⟩ :: r.calls }

def sendAll (buf : List Byte) (writes : List WriteOutcome) : SendResult := sendAllLoop 0 buf writes

/-- The bytes a run of calls got accepted, in order. -/
def acceptedBytes (calls : List WriteCall) : List Byte :=
  calls.flatMap fun c => c.offered.take c.accepted

/-- `send_all` fails only after a call that took nothing. -/
theorem sendAllLoop_rc_none {writes : List WriteOutcome} {total : Nat} {buf : List Byte}
    (h : (sendAllLoop total buf writes).rc = none) : ∃ c ∈ (sendAllLoop total buf writes).calls, c.accepted = 0 := by
  induction writes generalizing total buf with
  | nil => cases h
  | cons o os ih =>
    unfold sendAllLoop at h ⊢
    split at h
    · cases h
    · rename_i hb
      rw [if_neg hb]
      cases o with
      | eintr => exact ⟨⟨buf, 0⟩, by simp, rfl⟩
      | err => exact ⟨⟨buf, 0⟩, by simp, rfl⟩
      | ret n =>
        dsimp only at h ⊢
        split at h
        · cases h
        · rename_i hk
          rw [if_neg hk]
          obtain ⟨c, hc, h0⟩ := ih h
          exact ⟨c, List.mem_cons_of_mem _ hc, h0⟩

theorem sendAll_rc_none {writes : List WriteOutcome} {buf : List Byte} (h : (sendAll buf writes).rc = none) :
    ∃ c ∈ (sendAll buf writes).calls, c.accepted = 0 :=
  sendAllLoop_rc_none h

/-- What gets through is the beginning of what was to be sent, as much of it
as the value returned tells. -/
theorem sendAllLoop_accepted {writes : List WriteOutcome} {total : Nat} {buf : List Byte} :
    acceptedBytes (sendAllLoop total buf writes).calls <+: buf ∧ ∀ n, (sendAllLoop total buf writes).rc = some n →
      n = total + (acceptedBytes (sendAllLoop total buf writes).calls).length := by
  induction writes generalizing total buf with
  | nil => cases buf <;> simp [sendAllLoop, acceptedBytes]
  | cons o os ih =>
    unfold sendAllLoop
    split
    · simp [acceptedBytes]
    · cases o with
      | eintr => simpa [acceptedBytes] using ih
      | err => simp [acceptedBytes]
      | ret n =>
        dsimp only
        split
        · simp [acceptedBytes]
        · obtain ⟨hpre, hrc⟩ := @ih (total + min n buf.length) (buf.drop (min n buf.length))
          have hcalls : ∀ calls, acceptedBytes (⟨buf, min n buf.length⟩ :: calls) =
              buf.take (min n buf.length) ++ acceptedBytes calls := fun calls => rfl
          refine ⟨?_, fun m hm => ?_⟩
          · rw [hcalls]
            have := (List.prefix_append_right_inj (buf.take (min n buf.length))).2 hpre
            rwa [List.take_append_drop] at this
          · rw [hrc m hm, hcalls, List.length_append, List.length_take]
            omega

/-- A send that succeeds has sent everything, where it does not stop early. -/
theorem sendAll_accepted (buf : List Byte) (writes : List WriteOutcome) :
    acceptedBytes (sendAll buf writes).calls <+: buf ∧
      ((sendAll buf writes).rc = some buf.length → acceptedBytes (sendAll buf writes).calls = buf) := by
  obtain ⟨hpre, hrc⟩ := @sendAllLoop_accepted writes 0 buf
  refine ⟨hpre, fun h => hpre.eq_of_length ?_⟩
  have := hrc _ h
  rw [Nat.zero_add] at this
  exact this.symm

/-- Where no call answers 0, a send that succeeds has sent everything, and one
that fails has not. -/
theorem sendAllLoop_steady {writes : List WriteOutcome} {total : Nat} {buf : List Byte} (h : ∀ o ∈ writes, o ≠ .ret 0) :
    let r := sendAllLoop total buf writes
    (r.rc = none → (acceptedBytes r.calls).length < buf.length) ∧ (r.rc ≠ none → acceptedBytes r.calls = buf) ∧
      ∀ o ∈ r.rest, o ≠ .ret 0 := by
  induction writes generalizing total buf with
  | nil => cases buf <;> simp [sendAllLoop, acceptedBytes]
  | cons o os ih =>
    have hos : ∀ o ∈ os, o ≠ .ret 0 := fun o ho => h o (List.mem_cons_of_mem _ ho)
    unfold sendAllLoop
    by_cases hb : buf.isEmpty = true
    · rw [if_pos hb]
      obtain rfl : buf = [] := by simpa using hb
      exact ⟨fun hn => (nomatch hn), fun _ => rfl, h⟩
    · rw [if_neg hb]
      have hpos : 0 < buf.length := List.length_pos_iff.2 (by simpa using hb)
      cases o with
      | eintr => simpa [acceptedBytes] using @ih total buf hos
      | err => exact ⟨fun _ => hpos, fun hn => absurd rfl hn, hos⟩
      | ret n =>
        have hn : n ≠ 0 := fun hn => h (.ret n) (by simp) (by rw [hn])
        dsimp only
        rw [if_neg (by omega)]
        obtain ⟨hfail, hall, hrest⟩ := @ih (total + min n buf.length) (buf.drop (min n buf.length)) hos
        have hcalls : ∀ calls, acceptedBytes (⟨buf, min n buf.length⟩ :: calls) =
            buf.take (min n buf.length) ++ acceptedBytes calls := fun calls => rfl
        refine ⟨fun hrc => ?_, fun hrc => ?_, hrest⟩
        · have := hfail hrc
          simp only [hcalls, List.length_append, List.length_take, List.length_drop] at this ⊢
          omega
        · rw [hcalls, hall hrc, List.take_append_drop]

/-- Sending something takes a call. -/
theorem sendAll_calls_ne_nil {writes : List WriteOutcome} {buf : List Byte} (hbuf : buf ≠ []) :
    (sendAll buf writes).calls ≠ [] := by
  unfold sendAll
  cases writes with
  | nil => simp [sendAllLoop, hbuf]
  | cons o os =>
    unfold sendAllLoop
    rw [if_neg (by simpa using hbuf)]
    cases o with
    | eintr => simp
    | err => simp
    | ret n =>
      dsimp only
      split <;> simp

/-- Where every call takes all it is offered, there is one call. -/
theorem sendAll_whole {writes : List WriteOutcome} {buf : List Byte} (hbuf : buf ≠ [])
    (h : ∀ c ∈ (sendAll buf writes).calls, c.accepted = c.offered.length) :
    (sendAll buf writes).calls = [⟨buf, buf.length⟩] := by
  have hlen : 0 < buf.length := List.length_pos_iff.2 hbuf
  unfold sendAll at h ⊢
  cases writes with
  | nil => simp [sendAllLoop, hbuf]
  | cons o os =>
    unfold sendAllLoop at h ⊢
    have hb : buf.isEmpty = false := by simpa using hbuf
    simp only [hb, Bool.false_eq_true, if_false] at h ⊢
    cases o with
    | eintr =>
      have := h ⟨buf, 0⟩ (by simp)
      simp only at this
      omega
    | err =>
      have := h ⟨buf, 0⟩ (by simp)
      simp only at this
      omega
    | ret n =>
      dsimp only at h ⊢
      split at h
      · have := h ⟨buf, 0⟩ (by simp)
        simp only at this
        omega
      · rename_i hk
        have hfull := h ⟨buf, min n buf.length⟩ (by simp)
        simp only at hfull
        rw [if_neg hk, hfull, List.drop_length]
        cases os <;> simp [sendAllLoop]

end SecureProxy
