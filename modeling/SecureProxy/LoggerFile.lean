/-
The log file over any sequence of calls. A line goes out through `send_all`,
which writes on after a short count; when the rest of the line then cannot be
written, the part that could stays in the file. With no such call, the file is
the lines of the calls that were not counted as failures.
-/
import SecureProxy.LoggerLine

namespace SecureProxy

open Bytes

/-- How much `write` takes before it first fails or takes nothing; `none` if
it never does. -/
def writtenBefore : List WriteOutcome → Option Nat
  | [] => none
  | .err :: _ => some 0
  | .eintr :: ws => writtenBefore ws
  | .ret n :: ws => if n = 0 then some 0 else (writtenBefore ws).map (n + ·)

/-- The calls that left the failure counter as it was. -/
def uncounted : LogState → List LogCall → List LogCall
  | _, [] => []
  | s, c :: cs =>
    (if (logRequestEx s c).failures = s.failures then [c] else []) ++ uncounted (logRequestEx s c) cs

/-- `write` takes a part of the line and then fails. -/
def LogCall.torn (c : LogCall) : Bool := (writtenBefore c.writes).any fun n => decide (0 < n) && decide (n < c.line.length)

/-- The file has grown by the lines of the calls that were not counted as
failures, in their order. -/
def LinesWhole (s : LogState) (calls : List LogCall) : Prop :=
  (logRun s calls).file = s.file ++ (uncounted s calls).flatMap LogCall.line

/-! ## One line -/

/-- A send comes to its end, or stops where `write` first fails. -/
theorem sendAllLoop_writtenBefore {ws : List WriteOutcome} {total : Nat} {buf : List Byte} :
    (∀ n, writtenBefore ws = some n → n < buf.length → (sendAllLoop total buf ws).rc ≠ some (total + buf.length) ∧
        acceptedBytes (sendAllLoop total buf ws).calls = buf.take n) ∧
      ((∀ n, writtenBefore ws = some n → buf.length ≤ n) → (sendAllLoop total buf ws).rc = some (total + buf.length) ∧
        acceptedBytes (sendAllLoop total buf ws).calls = buf) := by
  induction ws generalizing total buf with
  | nil =>
    refine ⟨fun n hn => (nomatch hn), fun _ => ?_⟩
    cases buf <;> simp [sendAllLoop, acceptedBytes]
  | cons o os ih =>
    unfold sendAllLoop
    by_cases hb : buf.isEmpty = true
    · obtain rfl : buf = [] := by simpa using hb
      exact ⟨fun n _ hlt => absurd hlt (Nat.not_lt_zero n), fun _ => ⟨rfl, rfl⟩⟩
    · rw [if_neg hb]
      have hpos : 0 < buf.length := List.length_pos_iff.2 (by simpa using hb)
      cases o with
      | eintr => exact @ih total buf
      | err =>
        refine ⟨fun n hn _ => ?_, fun hall => absurd (hall 0 rfl) (by omega)⟩
        cases hn
        exact ⟨by simp, by simp [acceptedBytes]⟩
      | ret k =>
        have hcalls : ∀ n calls, acceptedBytes (⟨buf, n⟩ :: calls) = buf.take n ++ acceptedBytes calls := fun _ _ => rfl
        by_cases hk : k = 0
        · subst hk
          refine ⟨fun n hn _ => ?_, fun hall => absurd (hall 0 rfl) (by omega)⟩
          cases hn
          simp only [Nat.zero_min, if_true, hcalls]
          exact ⟨by simp only [ne_eq, Option.some.injEq]; omega, by simp [acceptedBytes]⟩
        · obtain ⟨hstops, hends⟩ := @ih (total + min k buf.length) (buf.drop (min k buf.length))
          have hlen : total + min k buf.length + (buf.drop (min k buf.length)).length = total + buf.length := by
            rw [List.length_drop]
            omega
          rw [hlen] at hstops hends
          dsimp only
          rw [if_neg (by omega)]
          simp only [writtenBefore, if_neg hk, Option.map_eq_some_iff, hcalls]
          refine ⟨fun n hn hlt => ?_, fun hall => ?_⟩
          · obtain ⟨m, hm, rfl⟩ := hn
            obtain ⟨hrc, hacc⟩ := hstops m hm (by rw [List.length_drop]; omega)
            refine ⟨hrc, ?_⟩
            rw [hacc, Nat.min_eq_left (by omega), List.take_add]
          · obtain ⟨hrc, hacc⟩ := hends fun m hm => by
              have := hall (k + m) ⟨m, hm, rfl⟩
              rw [List.length_drop]
              omega
            exact ⟨hrc, by rw [hacc, List.take_append_drop]⟩

/-- A call on the open file: its line, or a failure that is counted and leaves
what `write` took before. -/
theorem logRequestEx_cases {s : LogState} (hopen : s.fdOpen = true) (c : LogCall) :
    (logRequestEx s c = { s with file := s.file ++ c.line } ∧ c.torn = false) ∨
      ∃ n, writtenBefore c.writes = some n ∧ n < c.line.length ∧
        logRequestEx s c = { s with file := s.file ++ c.line.take n, failures := s.failures + 1 } := by
  obtain ⟨hstops, hends⟩ := @sendAllLoop_writtenBefore c.writes 0 c.line
  rw [Nat.zero_add] at hstops hends
  have hrun : logRequestEx s c = { s with
      file := s.file ++ acceptedBytes (sendAll c.line c.writes).calls
      failures := if (sendAll c.line c.writes).rc ≠ some c.line.length then s.failures + 1 else s.failures } := by
    unfold logRequestEx
    rw [hopen]
    rfl
  rw [hrun]
  by_cases hall : ∀ n, writtenBefore c.writes = some n → c.line.length ≤ n
  · obtain ⟨hrc, hacc⟩ := hends hall
    refine .inl ⟨?_, ?_⟩
    · rw [sendAll, hacc, hrc]
      simp
    · unfold LogCall.torn
      cases hw : writtenBefore c.writes with
      | none => rfl
      | some n =>
        have := hall n hw
        simp only [Option.any_some, Bool.and_eq_false_iff, decide_eq_false_iff_not]
        omega
  · obtain ⟨n, hn⟩ := not_forall.1 hall
    obtain ⟨hw, hlt⟩ := Classical.not_imp.1 hn
    rw [Nat.not_le] at hlt
    obtain ⟨hrc, hacc⟩ := hstops n hw hlt
    refine .inr ⟨n, hw, hlt, ?_⟩
    rw [sendAll, hacc, if_pos hrc]

/-! ## Runs -/

theorem logRun_append (s : LogState) (calls calls' : List LogCall) :
    logRun s (calls ++ calls') = logRun (logRun s calls) calls' :=
  List.foldl_append

theorem uncounted_append (s : LogState) (calls calls' : List LogCall) :
    uncounted s (calls ++ calls') = uncounted s calls ++ uncounted (logRun s calls) calls' := by
  induction calls generalizing s with
  | nil => rfl
  | cons c calls ih =>
    simp only [List.cons_append, uncounted, ih, List.append_assoc]
    rfl

theorem logRun_open (calls : List LogCall) {s : LogState} (hopen : s.fdOpen = true) : (logRun s calls).fdOpen = true := by
  induction calls generalizing s with
  | nil => exact hopen
  | cons c calls ih =>
    refine ih (s := logRequestEx s c) ?_
    rcases logRequestEx_cases hopen c with ⟨h, -⟩ | ⟨n, -, -, h⟩ <;> rw [h] <;> exact hopen

/-- One more call keeps the lines whole exactly where it is not torn. -/
theorem linesWhole_snoc {s : LogState} (hopen : s.fdOpen = true) {calls : List LogCall} (h : LinesWhole s calls)
    (c : LogCall) : LinesWhole s (calls ++ [c]) ↔ c.torn = false := by
  unfold LinesWhole at h ⊢
  rw [logRun_append, uncounted_append]
  generalize hrun : logRun s calls = t at h ⊢
  have htopen : t.fdOpen = true := hrun ▸ logRun_open calls hopen
  simp only [logRun, List.foldl_cons, List.foldl_nil, uncounted, List.append_nil, List.flatMap_append]
  rcases logRequestEx_cases htopen c with ⟨hc, htorn⟩ | ⟨n, hw, hlt, hc⟩
  · simp [hc, htorn, h]
  · have hcount : ¬ (logRequestEx t c).failures = t.failures := by
      rw [hc]
      simp
    rw [if_neg hcount, hc]
    simp only [h, List.flatMap_nil, List.append_nil, List.append_right_eq_self, List.take_eq_nil_iff, LogCall.torn, hw,
      Option.any_some, Bool.and_eq_false_iff, decide_eq_false_iff_not]
    have hline : c.line ≠ [] := fun hnil => by simp [hnil] at hlt
    constructor
    · intro hnil
      have hz := hnil.resolve_right hline
      omega
    · intro hno
      exact .inl (by omega)

theorem linesWhole_of_not_torn {s : LogState} (hopen : s.fdOpen = true) {calls : List LogCall}
    (h : ∀ c ∈ calls, c.torn = false) : LinesWhole s calls := by
  induction calls using List.reverseRecOn with
  | nil => simp [LinesWhole, logRun, uncounted]
  | append_singleton calls c ih =>
    have hbefore := ih fun c' hc' => h c' (List.mem_append_left _ hc')
    exact (linesWhole_snoc hopen hbefore c).2 (h c (List.mem_append_right _ List.mem_cons_self))

/-- A line ends with its only newline. -/
theorem LogCall.line_eq (c : LogCall) : ∃ body, c.line = body ++ [ch '\n'] ∧ ch '\n' ∉ body := by
  refine ⟨_, logLine_eq c.now c.fields, fun hmem => ?_⟩
  have hcontrol := logText_control c.now c.fields (List.take_prefix _ _) _ hmem
  exact absurd hcontrol (by decide)

/-- **The log is made of whole lines exactly where no call is torn.** In every
run on an open file, the file is at all times what it was, followed by the
lines of the calls not counted as failures, each with its one newline at its
end; and it is so if and only if no call has a part of its line written before
`write` fails. -/
theorem logRun_whole (file : List Byte) (failures : Nat) (calls : List LogCall) :
    ((∀ n, LinesWhole ⟨true, file, failures⟩ (calls.take n)) ↔ ∀ c ∈ calls, c.torn = false) ∧
      ∀ c ∈ calls, ∃ body, c.line = body ++ [ch '\n'] ∧ ch '\n' ∉ body := by
  refine ⟨⟨fun h c hc => ?_, fun h n => ?_⟩, fun c _ => c.line_eq⟩
  · obtain ⟨before, after, rfl⟩ := List.append_of_mem hc
    have hbefore := h before.length
    have hwith := h (before.length + 1)
    rw [List.take_left] at hbefore
    rw [show before ++ c :: after = (before ++ [c]) ++ after by simp, show before.length + 1 = (before ++ [c]).length by simp,
      List.take_left] at hwith
    exact (linesWhole_snoc rfl hbefore c).1 hwith
  · exact linesWhole_of_not_torn rfl fun c hc => h c (List.mem_of_mem_take hc)

/-- The disk fills up after five bytes of the first line, and has room again
for the second: the file starts with a piece of the first line, in one line
with the second. -/
theorem logRun_torn :
    let fields : LogFields := ⟨1, some (bytes "a.test"), some (bytes "allowed"), 200, 512, 3, none⟩
    let calls : List LogCall := [⟨none, fields, [.ret 5, .err]⟩, ⟨none, { fields with requestId := 2 }, []⟩]
    ¬ LinesWhole {} calls ∧ (logRun {} calls).failures = 1 ∧
      (logRun {} calls).file =
        bytes "- req- req=2 host=a.test decision=allowed status=200 bytes=512 duration_ms=3\n" := by
  intro fields calls
  have hfile : (logRun {} calls).file =
      bytes "- req- req=2 host=a.test decision=allowed status=200 bytes=512 duration_ms=3\n" := by decide +kernel
  refine ⟨fun hwhole => ?_, by decide +kernel, hfile⟩
  have hlines : (uncounted {} calls).flatMap LogCall.line =
      bytes "- req=2 host=a.test decision=allowed status=200 bytes=512 duration_ms=3\n" := by decide +kernel
  rw [LinesWhole, hfile, hlines] at hwhole
  revert hwhole
  decide

end SecureProxy
