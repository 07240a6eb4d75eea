/-
`drain_and_close` and the last lines of `handle_client` (`proxy.c`): from the
log line to the return of the worker.

What `recv` on the client's socket answers is an infinite sequence, since the
loop has no bound of its own: the 200 ms of its receive timeout bound one
call, and a client that sends within each of them is never timed out. A step
is one call of the source. What the worker does here is written in the same
trace as in `HandleClient`, where the drain is one event.
-/
import SecureProxy.HandleClientFacts

namespace SecureProxy

open Bytes Progs

/-- `sizeof(discard)`. -/
def drainBufLen : Nat := 512

/-- The test of the loop, `recv(..) > 0`. -/
def RecvOutcome.isData {cap : Nat} : RecvOutcome cap → Bool
  | .data _ => true
  | .eof | .eagain | .eintr | .err => false

/-- The call a worker makes next. -/
inductive CleanupPc where
  | shutdown
  | setsockopt
  | recv
  | close
  /-- `g_active_clients--`. -/
  | leave
  | returned
  deriving DecidableEq, Repr

structure CleanupState where
  pc : CleanupPc := .shutdown
  /-- The calls of `recv` so far. -/
  reads : Nat := 0
  /-- What the drain has come to, in the trace of the worker. -/
  trace : Trace := []

section

variable (answers : Nat → RecvOutcome drainBufLen)

def cleanupStep (s : CleanupState) : CleanupState :=
  match s.pc with
  | .shutdown => { s with pc := .setsockopt }
  | .setsockopt => { s with pc := .recv }
  | .recv => { s with pc := if (answers s.reads).isData then .recv else .close, reads := s.reads + 1 }
  | .close => { s with pc := .leave, trace := s.trace ++ [.said .drainAndClose] }
  | .leave => { s with pc := .returned, trace := s.trace ++ [.asked .leave ()] }
  | .returned => s

/-- The worker after `k` steps. -/
def cleanupRun : Nat → CleanupState
  | 0 => {}
  | k + 1 => cleanupStep answers (cleanupRun k)

/-- The worker comes to an end: the loop is left after finitely many calls,
the socket is closed and the slot given back. -/
structure CleanupEnds : Prop where
  reads : ∃ n, ∀ k, (cleanupRun answers k).reads ≤ n
  closed : ∃ k, .said .drainAndClose ∈ (cleanupRun answers k).trace
  left : ∃ k, .asked .leave () ∈ (cleanupRun answers k).trace

end

/-- The trace of a cleanup that has come to its end. -/
def drained : Trace := [.said .drainAndClose, .asked .leave ()]

/-- It is what every run of a worker ends with. -/
theorem runs_handleClient_drained {ok : (q : Query) → q.Answer → Prop} {g : Globals} {env : ClientEnv} {t : Trace}
    {u : Unit} (h : Runs ok (handleClient g (some env)) t u) : ∃ record front, t = front ++ .said (.log record) :: drained := by
  obtain ⟨requestId, t₁, o, -, rfl⟩ := runs_handleClient h
  exact ⟨_, _, rfl⟩

variable {answers : Nat → RecvOutcome drainBufLen}

/-- As long as there is data, the worker is in the loop. -/
theorem cleanupRun_recv {n : Nat} (h : ∀ i < n, (answers i).isData = true) :
    cleanupRun answers (n + 2) = { pc := .recv, reads := n, trace := [] } := by
  induction n with
  | zero => rfl
  | succ n ih =>
    have hn : (answers n).isData = true := h n (Nat.lt_succ_self n)
    have hrun : cleanupRun answers (n + 1 + 2) = cleanupStep answers (cleanupRun answers (n + 2)) := rfl
    rw [hrun, ih fun i hi => h i (by omega)]
    simp [cleanupStep, hn]

/-- Behind the first answer that is not data, it is out of it. -/
theorem cleanupRun_returned {n : Nat} (h : ∀ i < n, (answers i).isData = true) (hn : (answers n).isData = false)
    (k : Nat) : cleanupRun answers (n + 5 + k) = { pc := .returned, reads := n + 1, trace := drained } := by
  induction k with
  | zero =>
    have hrun : cleanupRun answers (n + 5) =
        cleanupStep answers (cleanupStep answers (cleanupStep answers (cleanupRun answers (n + 2)))) := rfl
    rw [Nat.add_zero, hrun, cleanupRun_recv h]
    simp [cleanupStep, hn, drained]
  | succ k ih =>
    have hrun : cleanupRun answers (n + 5 + (k + 1)) = cleanupStep answers (cleanupRun answers (n + 5 + k)) := rfl
    rw [hrun, ih]
    rfl

theorem cleanupStep_reads (s : CleanupState) : s.reads ≤ (cleanupStep answers s).reads := by
  unfold cleanupStep
  split <;> simp

theorem cleanupRun_reads_mono {j k : Nat} (h : j ≤ k) : (cleanupRun answers j).reads ≤ (cleanupRun answers k).reads := by
  induction h with
  | refl => exact Nat.le_refl _
  | step _ ih => exact Nat.le_trans ih (cleanupStep_reads _)

/-- A stream of data keeps the worker. -/
theorem cleanupEnds_of_stream (h : ∀ i, (answers i).isData = true) : ¬ CleanupEnds answers := by
  rintro ⟨⟨n, hn⟩, -, -⟩
  have := hn (n + 1 + 2)
  rw [cleanupRun_recv fun i _ => h i] at this
  simp at this

/-- A client that sends a byte for every call of `recv`. -/
def byteStream (_ : Nat) : RecvOutcome drainBufLen := .data ⟨[ch 'x'], by decide, by decide⟩

theorem cleanupEnds_byteStream : ¬ CleanupEnds byteStream := cleanupEnds_of_stream fun _ => rfl

/-- A worker that has answered is let go exactly where some `recv` of its
drain brings no data. -/
theorem cleanupEnds_iff (answers : Nat → RecvOutcome drainBufLen) :
    CleanupEnds answers ↔ ∃ i, (answers i).isData = false := by
  constructor
  · intro h
    by_contra hall
    simp only [not_exists, Bool.not_eq_false] at hall
    exact cleanupEnds_of_stream hall h
  · intro h
    have hfirst : ∀ i < Nat.find h, (answers i).isData = true := fun i hi => by simpa using Nat.find_min h hi
    have hend := cleanupRun_returned hfirst (Nat.find_spec h)
    refine ⟨⟨Nat.find h + 1, fun k => ?_⟩, ⟨Nat.find h + 5 + 0, ?_⟩, ⟨Nat.find h + 5 + 0, ?_⟩⟩
    · have := @cleanupRun_reads_mono answers k (Nat.find h + 5 + k) (by omega)
      rwa [hend k] at this
    · rw [hend]
      simp [drained]
    · rw [hend]
      simp [drained]

end SecureProxy
