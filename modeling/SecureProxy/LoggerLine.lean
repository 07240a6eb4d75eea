/-
The line of a request. Whatever the caller passes, it is one line of seven
fields and what is left of the extras: no text of the caller's has a space or
a control byte in it by then, and the fields alone are short enough for the
buffer, so that only the extras can be cut.
-/
import SecureProxy.Lib.Lines
import SecureProxy.Logger

namespace SecureProxy

open Bytes

/-! ## The bytes of a field -/

def isControl (b : Byte) : Bool := decide (b < 32) || b == 127

/-- Neither a control byte nor a space. -/
def isPlain (b : Byte) : Bool := !isControl b && b != ch ' '

theorem isPlain_digit : ∀ b, isDigit b = true → isPlain b = true := forall_byte (by decide +kernel)

theorem isPlain_cleanHostByte : ∀ b, isPlain (cleanHostByte b) = true := forall_byte (by decide +kernel)

theorem isPlain_cleanDecisionByte : ∀ b, isPlain (cleanDecisionByte b) = true := forall_byte (by decide +kernel)

theorem isControl_cleanExtrasByte : ∀ b, isControl (cleanExtrasByte b) = false := forall_byte (by decide +kernel)

theorem plain_decimal (n : Nat) : (decimal n).all isPlain = true :=
  List.all_eq_true.2 fun b hb => isPlain_digit b (isDigit_of_mem_decimal hb)

theorem plain_signedDecimal (n : Int) : (signedDecimal n).all isPlain = true := by
  unfold signedDecimal
  split
  · rw [List.all_cons, plain_decimal]
    rfl
  · exact plain_decimal _

theorem plain_twoDigits (n : Nat) : (twoDigits n).all isPlain = true := by
  unfold twoDigits
  split
  · rw [List.all_cons, plain_decimal]
    rfl
  · exact plain_decimal _

theorem plain_timestamp (now : Option Tm) : (timestamp now).all isPlain = true := by
  cases now with
  | none => rfl
  | some tm =>
    simp only [timestamp]
    split
    · rfl
    · simp only [isoTime, List.all_append, plain_signedDecimal, plain_twoDigits, Bool.true_and]
      rfl

theorem loggerSanitizeHost_plain {host : Option (List Byte)} {n : Nat} {out : List Byte}
    (h : loggerSanitizeHost host n = some out) : out.all isPlain = true ∧ out.length ≤ n - 1 := by
  unfold loggerSanitizeHost at h
  have hdash : (snprintf n (bytes "-")).1.all isPlain = true ∧ (snprintf n (bytes "-")).1.length ≤ n - 1 := by
    refine ⟨List.all_eq_true.2 fun b hb => ?_, by simp [snprintf]⟩
    have hmem : b ∈ bytes "-" := List.mem_of_mem_take hb
    obtain rfl : b = ch '-' := by simpa [bytes] using hmem
    rfl
  split at h
  · cases h
  · split at h
    · cases h
      exact hdash
    · simp only [Option.some.injEq] at h
      subst h
      split
      · exact hdash
      · refine ⟨List.all_eq_true.2 fun b hb => ?_, ?_⟩
        · obtain ⟨c, -, rfl⟩ := List.mem_map.1 hb
          exact isPlain_cleanHostByte c
        · rw [List.length_map]
          exact List.length_take_le _ _

theorem sanitizeDecision_plain (decision : Option (List Byte)) {n : Nat} (hn : 1 < n) :
    (sanitizeDecision decision n).all isPlain = true ∧ (sanitizeDecision decision n).length ≤ n - 1 := by
  unfold sanitizeDecision
  dsimp only
  split
  · exact ⟨rfl, by simp only [List.length_singleton]; omega⟩
  · refine ⟨List.all_eq_true.2 fun b hb => ?_, ?_⟩
    · obtain ⟨c, -, rfl⟩ := List.mem_map.1 hb
      exact isPlain_cleanDecisionByte c
    · rw [List.length_map]
      exact List.length_take_le _ _

theorem loggerSanitizeHost_safeHost (f : LogFields) : loggerSanitizeHost f.host logHostMax = some (safeHost f) := by
  unfold safeHost loggerSanitizeHost
  rw [if_neg (by decide)]
  cases f.host <;> rfl

/-! ## How long the fields are -/

theorem length_signedDecimal_le {n : Int} {k : Nat} (hk : 0 < k) (h : n.natAbs < 10 ^ k) :
    (signedDecimal n).length ≤ k + 1 := by
  have hlen := length_decimal_le hk h
  unfold signedDecimal
  split
  · rw [List.length_cons]
    omega
  · omega

theorem length_timestamp_le (now : Option Tm) : (timestamp now).length ≤ 31 := by
  cases now with
  | none => decide
  | some tm =>
    simp only [timestamp]
    split
    · decide
    · rename_i h
      simp only [logTimestampMax] at h
      omega

/-- The fields leave the extras room in the buffer, whatever their values. -/
theorem length_logFieldsText_le (now : Option Tm) (f : LogFields) : (logFieldsText now f).length ≤ 437 := by
  have htime := length_timestamp_le now
  have hid := length_decimal_le (k := 20) (by decide) (Nat.lt_of_lt_of_le f.requestId.toNat_lt (by decide))
  have hhost := (loggerSanitizeHost_plain (loggerSanitizeHost_safeHost f)).2
  have hdecision : (safeDecision f).length ≤ _ := (sanitizeDecision_plain f.decision (by decide)).2
  have hbytes := length_decimal_le (k := 20) (by decide) (Nat.lt_of_lt_of_le f.bytesForwarded.toNat_lt (by decide))
  have hstatus : (signedDecimal f.status.toInt).length ≤ 11 := by
    refine length_signedDecimal_le (k := 10) (by decide) ?_
    have h1 := f.status.toInt_lt
    have h2 := f.status.le_toInt
    omega
  have hduration : (signedDecimal f.durationMs.toInt).length ≤ 20 := by
    refine length_signedDecimal_le (k := 19) (by decide) ?_
    have h1 := f.durationMs.toInt_lt
    have h2 := f.durationMs.le_toInt
    omega
  have hlits : (bytes " req=").length = 5 ∧ (bytes " host=").length = 6 ∧ (bytes " decision=").length = 10 ∧
      (bytes " status=").length = 8 ∧ (bytes " bytes=").length = 7 ∧ (bytes " duration_ms=").length = 13 :=
    ⟨length_bytes _, length_bytes _, length_bytes _, length_bytes _, length_bytes _, length_bytes _⟩
  simp only [logHostMax, logDecisionMax] at hhost hdecision
  simp only [logFieldsText, List.length_append, hlits]
  omega

/-! ## The line -/

/-- The fields are all there, and as much of the extras as fits. -/
theorem logLine_eq (now : Option Tm) (f : LogFields) : logLine now f =
    logFieldsText now f ++ (logExtrasText f).take (510 - (logFieldsText now f).length) ++ [ch '\n'] := by
  have hlen := length_logFieldsText_le now f
  have htext : ∀ text, text = logFieldsText now f ++ logExtrasText f ++ [ch '\n'] →
      logLine now f = if text.length ≥ 512 then (text.take 511).take 510 ++ [ch '\n'] else text.take 511 := by
    intro text htext
    rw [htext]
    rfl
  rw [htext _ rfl]
  generalize logFieldsText now f = fields at hlen ⊢
  by_cases hfull : (fields ++ logExtrasText f ++ [ch '\n']).length ≥ 512
  · rw [if_pos hfull]
    rw [List.length_append, List.length_append, List.length_singleton] at hfull
    rw [List.take_take, List.append_assoc fields, List.take_append, List.take_of_length_le (by omega),
      List.take_append_of_le_length (by omega)]
    rfl
  · rw [if_neg hfull]
    rw [List.length_append, List.length_append, List.length_singleton] at hfull
    rw [List.take_of_length_le (by simp only [List.length_append, List.length_singleton]; omega),
      List.take_of_length_le (l := logExtrasText f) (by omega)]

/-- The fields of a line, in their order. -/
def logTokens (now : Option Tm) (f : LogFields) : List (List Byte) :=
  [timestamp now, bytes "req=" ++ decimal f.requestId.toNat, bytes "host=" ++ safeHost f,
    bytes "decision=" ++ safeDecision f, bytes "status=" ++ signedDecimal f.status.toInt,
    bytes "bytes=" ++ decimal f.bytesForwarded.toNat, bytes "duration_ms=" ++ signedDecimal f.durationMs.toInt]

theorem logFieldsText_eq (now : Option Tm) (f : LogFields) : logFieldsText now f = [ch ' '].intercalate (logTokens now f) := by
  have hlits : bytes " req=" = ch ' ' :: bytes "req=" ∧ bytes " host=" = ch ' ' :: bytes "host=" ∧
      bytes " decision=" = ch ' ' :: bytes "decision=" ∧ bytes " status=" = ch ' ' :: bytes "status=" ∧
      bytes " bytes=" = ch ' ' :: bytes "bytes=" ∧ bytes " duration_ms=" = ch ' ' :: bytes "duration_ms=" := by decide
  simp [logFieldsText, logTokens, List.intercalate, hlits]

theorem plain_logTokens (now : Option Tm) (f : LogFields) : ∀ token ∈ logTokens now f, token.all isPlain = true := by
  have hhost := (loggerSanitizeHost_plain (loggerSanitizeHost_safeHost f)).1
  have hdecision : (safeDecision f).all isPlain = true := (sanitizeDecision_plain f.decision (by decide)).1
  have hlits : (bytes "req=").all isPlain = true ∧ (bytes "host=").all isPlain = true ∧
      (bytes "decision=").all isPlain = true ∧ (bytes "status=").all isPlain = true ∧
      (bytes "bytes=").all isPlain = true ∧ (bytes "duration_ms=").all isPlain = true := by decide
  simp [logTokens, hhost, hdecision, hlits, plain_timestamp, plain_decimal, plain_signedDecimal, -List.all_eq_true]

theorem isPlain_ne_space {b : Byte} (h : isPlain b = true) : b ≠ ch ' ' := by
  rintro rfl
  cases h

theorem isPlain_not_control {b : Byte} (h : isPlain b = true) : isControl b = false := by
  simp only [isPlain, Bool.and_eq_true, Bool.not_eq_true'] at h
  exact h.1

theorem logExtrasText_control (f : LogFields) : ∀ b ∈ logExtrasText f, isControl b = false := by
  intro b hb
  rcases List.mem_append.1 hb with hb | hb
  · split at hb
    · obtain rfl : b = ch ' ' := by simpa [bytes] using hb
      rfl
    · cases hb
  · obtain ⟨c, -, rfl⟩ := List.mem_map.1 hb
    exact isControl_cleanExtrasByte c

/-- What follows the fields starts with a space, if there is anything. -/
theorem logExtrasText_take (f : LogFields) (k : Nat) :
    (logExtrasText f).take k = [] ∨ ∃ e, (logExtrasText f).take k = ch ' ' :: e := by
  unfold logExtrasText
  split
  · cases k with
    | zero => exact .inl rfl
    | succ k => exact .inr ⟨(safeExtras f).take k, rfl⟩
  · rename_i h
    rw [not_not] at h
    rw [h]
    exact .inl List.take_nil

theorem splitOn_logFieldsText (now : Option Tm) (f : LogFields) :
    (logFieldsText now f).splitOn (ch ' ') = logTokens now f := by
  rw [logFieldsText_eq]
  refine List.splitOn_intercalate _ (fun token htoken hspace => ?_) (by simp [logTokens])
  exact isPlain_ne_space (List.all_eq_true.1 (plain_logTokens now f token htoken) _ hspace) rfl

theorem logFieldsText_control (now : Option Tm) (f : LogFields) : ∀ b ∈ logFieldsText now f, isControl b = false := by
  intro b hb
  rw [logFieldsText_eq] at hb
  rcases Lines.mem_intercalate hb with rfl | ⟨token, htoken, hb⟩
  · rfl
  · exact isPlain_not_control (List.all_eq_true.1 (plain_logTokens now f token htoken) b hb)

/-- However much of the extras is left, a line has no control byte before its
newline. -/
theorem logText_control (now : Option Tm) (f : LogFields) {extras : List Byte} (hpre : extras <+: logExtrasText f) :
    ∀ b ∈ logFieldsText now f ++ extras, isControl b = false := by
  intro b hb
  rcases List.mem_append.1 hb with hb | hb
  · exact logFieldsText_control now f b hb
  · exact logExtrasText_control f b (hpre.subset hb)

/-- **Every line is one line, and its fields are what they should be.** It
fits the buffer and has its newline at the end and no other control byte; at
its spaces it falls apart into the seven fields with the values passed, and
what is left of the extras. Only they are ever cut. -/
theorem logLine_fields (now : Option Tm) (f : LogFields) :
    ∃ extras rest, logLine now f = logFieldsText now f ++ extras ++ [ch '\n'] ∧ extras <+: logExtrasText f ∧
      (logLine now f).length ≤ 511 ∧
      (∀ b ∈ logFieldsText now f ++ extras, isControl b = false) ∧
      loggerSanitizeHost f.host logHostMax = some (safeHost f) ∧
      (logFieldsText now f ++ extras).splitOn (ch ' ') =
        [timestamp now, bytes "req=" ++ decimal f.requestId.toNat, bytes "host=" ++ safeHost f,
          bytes "decision=" ++ safeDecision f, bytes "status=" ++ signedDecimal f.status.toInt,
          bytes "bytes=" ++ decimal f.bytesForwarded.toNat,
          bytes "duration_ms=" ++ signedDecimal f.durationMs.toInt] ++ rest := by
  have hline := logLine_eq now f
  have hfields := length_logFieldsText_le now f
  have hcut := logExtrasText_take f (510 - (logFieldsText now f).length)
  have hpre := List.take_prefix (510 - (logFieldsText now f).length) (logExtrasText f)
  have hlen := List.length_take_le (510 - (logFieldsText now f).length) (logExtrasText f)
  generalize (logExtrasText f).take (510 - (logFieldsText now f).length) = extras at hline hcut hpre hlen
  have hcontrol := logText_control now f hpre
  have hlength : (logLine now f).length ≤ 511 := by
    rw [hline, List.length_append, List.length_append, List.length_singleton]
    omega
  rcases hcut with hnil | ⟨e, he⟩
  · refine ⟨extras, [], hline, hpre, hlength, hcontrol, loggerSanitizeHost_safeHost f, ?_⟩
    rw [hnil, List.append_nil, List.append_nil]
    exact splitOn_logFieldsText now f
  · refine ⟨extras, e.splitOn (ch ' '), hline, hpre, hlength, hcontrol, loggerSanitizeHost_safeHost f, ?_⟩
    rw [he, List.splitOn_append_cons_self, splitOn_logFieldsText]
    rfl

end SecureProxy
