/-
The copy a fetch keeps for the cache. It grows by doubling, clamped to a limit
that need not be a power of two, and its capacity is kept apart from it; what
is copied always fits, the copy is there exactly where everything received did
and no `realloc` failed, and the client is sent the same bytes with it or
without.
-/
import Mathlib.Data.Fin.VecNotation
import SecureProxy.FetchFacts

namespace SecureProxy

open Bytes Word

/-! ## The capacity -/

/-- The capacity the doubling starts from. -/
def firstWant (cap : Nat) : Nat := if cap = 0 then 16384 else cap * 2 % wordSize

/-- Below 2^62 no doubling wraps, so the loop ends with enough room. -/
theorem doubleTo_ge {fuel want need : Nat} (hpos : 0 < want) (hneed : need < 2 ^ 62) (hfuel : need ≤ want + fuel) :
    need ≤ doubleTo fuel want need := by
  induction fuel generalizing want with
  | zero => simpa [doubleTo] using hfuel
  | succ fuel ih =>
    unfold doubleTo
    by_cases hlt : want < need
    · have hwrap : want * 2 % wordSize = want * 2 := Nat.mod_eq_of_lt (by simp only [wordSize]; omega)
      rw [if_pos hlt, hwrap]
      exact ih (by omega) (by omega)
    · rw [if_neg hlt]
      omega

theorem firstWant_pos {cap : Nat} (h : cap < 2 ^ 62) : 0 < firstWant cap := by
  unfold firstWant
  split
  · decide
  · rw [Nat.mod_eq_of_lt (by simp only [wordSize]; omega)]
    omega

/-- The clamped capacity has room for what is needed. -/
theorem wantedCap_bounds {cap need limit : Nat} (hlimit : limit < 2 ^ 62) (hcap : cap ≤ limit) (hneed : need ≤ limit) :
    need ≤ doubleTo need (firstWant cap) need ∧ need ≤ wantedCap cap need limit ∧ wantedCap cap need limit ≤ limit := by
  have hge : need ≤ doubleTo need (firstWant cap) need := doubleTo_ge (firstWant_pos (by omega)) (by omega) (by omega)
  have hwanted : wantedCap cap need limit = min (doubleTo need (firstWant cap) need) limit := rfl
  rw [hwanted]
  omega

/-! ## One chunk -/

/-- A call of `realloc` for the copy. -/
structure ReallocCall where
  want : Nat
  ok : Bool
  deriving DecidableEq, Repr

/-- The call a chunk makes, if the copy has to grow for it. -/
def chunkRealloc (limit : Nat) (realloc : Nat → Bool) (s : FetchStats) (cap : Nat) (chunk : List Byte) :
    Option ReallocCall :=
  if limit = 0 || s.captureOverflow then none
  else if s.captureLen + chunk.length > limit then none
  else if s.captureLen + chunk.length > cap then
    some ⟨wantedCap cap (s.captureLen + chunk.length) limit, realloc s.captureLen⟩
  else none

/-- The calls of a relay loop, in order. -/
def relayReallocs (limit : Nat) (realloc : Nat → Bool) : List (RecvOutcome relayChunkSize) → RelayState → List ReallocCall
  | .data chunk :: rest, st =>
    if (sendAll chunk.bytes st.writes).rc = none then []
    else
      (chunkRealloc limit realloc st.stats st.cap chunk.bytes).toList ++
        relayReallocs limit realloc rest ((st.afterSend chunk.bytes).relayed limit realloc chunk.bytes)
  | _, _ => []

variable {limit : Nat} {realloc : Nat → Bool}

/-- The ways a chunk goes: it comes too late, it does not fit the limit, its
`realloc` fails, or it is copied behind the others. -/
inductive Captures (limit : Nat) (realloc : Nat → Bool) (s : FetchStats) (cap : Nat) (chunk : List Byte) :
    FetchStats × Nat → Option ReallocCall → Prop
  | late : s.captureOverflow = true → Captures limit realloc s cap chunk (s, cap) none
  | tooLong : s.captureOverflow = false → limit < s.captureLen + chunk.length →
      Captures limit realloc s cap chunk (s.dropCapture, cap) none
  | failed (want : Nat) : s.captureOverflow = false → s.captureLen + chunk.length ≤ limit →
      Captures limit realloc s cap chunk (s.dropCapture, cap) (some ⟨want, false⟩)
  | copied (cap' : Nat) (call : Option ReallocCall) : s.captureOverflow = false → s.captureLen + chunk.length ≤ limit →
      (cap' = cap ∧ s.captureLen + chunk.length ≤ cap ∨ cap' = wantedCap cap (s.captureLen + chunk.length) limit) →
      (∀ c ∈ call, c.ok = true) →
      Captures limit realloc s cap chunk
        ({ s with capture := some ((s.capture.getD []).take s.captureLen ++ chunk),
                  captureLen := s.captureLen + chunk.length }, cap') call

theorem captureChunk_captures (realloc : Nat → Bool) (hpos : 0 < limit) (s : FetchStats) (cap : Nat) (chunk : List Byte) :
    Captures limit realloc s cap chunk (captureChunk limit realloc s cap chunk) (chunkRealloc limit realloc s cap chunk) := by
  have hlimit : ¬ limit = 0 := by omega
  cases hov : s.captureOverflow with
  | true =>
    have hoff : (decide (limit = 0) || s.captureOverflow) = true := by simp [hov]
    rw [captureChunk, chunkRealloc, if_pos hoff, if_pos hoff]
    exact .late hov
  | false =>
    have hon : ¬ (decide (limit = 0) || s.captureOverflow) = true := by simp [hov, hlimit]
    rw [captureChunk, chunkRealloc, if_neg hon, if_neg hon]
    by_cases hlong : s.captureLen + chunk.length > limit
    · rw [if_pos hlong, if_pos hlong]
      exact .tooLong hov hlong
    · rw [if_neg hlong, if_neg hlong]
      by_cases hgrow : s.captureLen + chunk.length > cap
      · cases hok : realloc s.captureLen with
        | false =>
          rw [if_pos (by simp [hgrow]), if_pos hgrow]
          exact .failed _ hov (by omega)
        | true =>
          rw [if_neg (by simp), if_pos hgrow]
          simp only [if_pos hgrow]
          exact .copied _ _ hov (by omega) (.inr rfl) (by simp)
      · rw [if_neg (by simp [hgrow]), if_neg hgrow]
        simp only [if_neg hgrow]
        exact .copied _ _ hov (by omega) (.inl ⟨rfl, by omega⟩) (by simp)

/-! ## The loop -/

/-- What is kept fits the capacity, and the capacity fits the limit. -/
structure CaptureInv (limit : Nat) (st : RelayState) : Prop where
  len_le_cap : st.stats.captureLen ≤ st.cap
  cap_le_limit : st.cap ≤ limit
  copy_len : (st.stats.capture.getD []).length = st.stats.captureLen
  dropped : st.stats.captureOverflow = true → st.stats.capture = none

theorem CaptureInv.start (limit : Nat) (writes : List WriteOutcome) : CaptureInv limit { writes } :=
  ⟨Nat.le_refl 0, Nat.zero_le limit, rfl, fun _ => rfl⟩

theorem CaptureInv.afterSend {st : RelayState} (h : CaptureInv limit st) (chunk : List Byte) :
    CaptureInv limit (st.afterSend chunk) := by
  constructor <;> simp only [RelayState.afterSend, noteStatus_captureLen, noteStatus_cap, noteStatus_capture,
    noteStatus_captureOverflow]
  · exact h.len_le_cap
  · exact h.cap_le_limit
  · exact h.copy_len
  · exact h.dropped

theorem CaptureInv.step (hpos : 0 < limit) (hlimit : limit < 2 ^ 62) {st : RelayState} (h : CaptureInv limit st)
    (chunk : List Byte) : CaptureInv limit ((st.afterSend chunk).relayed limit realloc chunk) := by
  obtain ⟨s, heq, -, hcapture, hlen, hover⟩ := relayed_stats limit realloc st chunk
  have hlencap := h.len_le_cap
  have hcaplim := h.cap_le_limit
  have hcopy := h.copy_len
  rw [← hlen] at hlencap hcopy
  rw [← hcapture] at hcopy
  have hchunk := captureChunk_captures realloc hpos s st.cap chunk
  rw [heq]
  generalize captureChunk limit realloc s st.cap chunk = after, chunkRealloc limit realloc s st.cap chunk = call at hchunk
  cases hchunk with
  | late hov => exact ⟨hlencap, hcaplim, hcopy, fun _ => hcapture.trans (h.dropped (hover ▸ hov))⟩
  | tooLong => exact ⟨Nat.zero_le _, hcaplim, rfl, fun _ => rfl⟩
  | failed => exact ⟨Nat.zero_le _, hcaplim, rfl, fun _ => rfl⟩
  | copied cap' _ hov hle hcap' _ =>
    obtain ⟨-, hneed, hclamp⟩ := wantedCap_bounds hlimit hcaplim hle
    refine ⟨?_, ?_, ?_, fun hov' => absurd (hov.symm.trans hov') (by decide)⟩
    · show s.captureLen + chunk.length ≤ cap'
      omega
    · show cap' ≤ limit
      omega
    · show ((s.capture.getD []).take s.captureLen ++ chunk).length = s.captureLen + chunk.length
      rw [List.length_append, List.length_take, hcopy, Nat.min_self]

/-- The bounds hold wherever the loop ends, also where the client was lost. -/
theorem relayLoop_captureInv (hpos : 0 < limit) (hlimit : limit < 2 ^ 62) {chunks : List (RecvOutcome relayChunkSize)}
    {st : RelayState} (h : CaptureInv limit st) : CaptureInv limit (relayLoop limit realloc chunks st).2 := by
  have hends := @relayLoop_ends limit realloc (CaptureInv limit) (fun _ chunk h => h.step hpos hlimit chunk.bytes) chunks st h
  generalize relayLoop limit realloc chunks st = r at hends
  cases hends with
  | between _ hst => exact hst
  | lost _ hst => exact hst.afterSend _

/-- The copy outlives a chunk exactly where all that came so far fits and its
`realloc`, if it made one, did not fail. -/
theorem relayed_overflow (hpos : 0 < limit) {st : RelayState} (h : RelayInv limit st) (chunk : List Byte) :
    ((st.afterSend chunk).relayed limit realloc chunk).stats.captureOverflow = false ↔
      st.stats.captureOverflow = false ∧ (st.received ++ chunk).length ≤ limit ∧
        ∀ c ∈ chunkRealloc limit realloc st.stats st.cap chunk, c.ok = true := by
  obtain ⟨s, heq, -, -, hlen, hover⟩ := relayed_stats limit realloc st chunk
  have hcall : chunkRealloc limit realloc st.stats st.cap chunk = chunkRealloc limit realloc s st.cap chunk := by
    simp only [chunkRealloc, hlen, hover]
  have hreceived : s.captureOverflow = false → s.captureLen = st.received.length := fun hov =>
    hlen.trans (h.copy (hover ▸ hov) (by omega)).2
  have hchunk := captureChunk_captures realloc hpos s st.cap chunk
  rw [heq, hcall, ← hover, List.length_append]
  generalize captureChunk limit realloc s st.cap chunk = after, chunkRealloc limit realloc s st.cap chunk = call at hchunk
  cases hchunk with
  | late hov => simp [hov]
  | tooLong hov hlong =>
    have := hreceived hov
    simp only [FetchStats.dropCapture]
    constructor
    · intro hfalse
      cases hfalse
    · intro h
      have hle := h.2.1
      omega
  | failed want hov hle => simp [FetchStats.dropCapture]
  | copied cap' call hov hle _ hok =>
    have := hreceived hov
    exact ⟨fun _ => ⟨hov, by omega, hok⟩, fun _ => hov⟩

/-- At the close, the copy is whole exactly where it all fits and no `realloc`
failed. -/
theorem relayLoop_overflow (hpos : 0 < limit) (hlimit : limit < 2 ^ 62) {chunks : List (RecvOutcome relayChunkSize)}
    {st : RelayState} (h : RelayInv limit st) (hcap : CaptureInv limit st)
    (hend : (relayLoop limit realloc chunks st).1 = .eof) :
    (relayLoop limit realloc chunks st).2.stats.captureOverflow = false ↔
      st.stats.captureOverflow = false ∧ (relayLoop limit realloc chunks st).2.received.length ≤ limit ∧
        ∀ c ∈ relayReallocs limit realloc chunks st, c.ok = true := by
  induction chunks generalizing st with
  | nil => cases hend
  | cons o os ih =>
    cases o with
    | data chunk =>
      rw [relayLoop_data] at hend ⊢
      split at hend
      · cases hend
      · rename_i hrc
        obtain ⟨rest, -, hrecv⟩ := relayLoop_eof hend
        rw [if_neg hrc, relayReallocs, if_neg hrc, ih (h.step chunk) (hcap.step hpos hlimit chunk.bytes) hend,
          relayed_overflow hpos h]
        have hgrow : (st.received ++ chunk.bytes).length ≤
            (relayLoop limit realloc os ((st.afterSend chunk.bytes).relayed limit realloc chunk.bytes)).2.received.length := by
          rw [hrecv]
          exact (List.prefix_append (st.received ++ chunk.bytes) rest).length_le
        simp only [List.forall_mem_append, Option.mem_toList]
        constructor
        · intro ⟨⟨hov, _, hok⟩, hle, hrest⟩
          exact ⟨hov, hle, hok, hrest⟩
        · intro ⟨hov, hle, hok, hrest⟩
          exact ⟨⟨hov, hgrow.trans hle, hok⟩, hle, hrest⟩
    | eof =>
      have hlen := hcap.len_le_cap
      have hlim := hcap.cap_le_limit
      simp only [relayLoop, relayReallocs, List.not_mem_nil, false_imp_iff, implies_true, and_true]
      refine ⟨fun hov => ⟨hov, ?_⟩, fun hov => hov.1⟩
      rw [← (h.copy hov (by omega)).2]
      omega
    | eagain => cases hend
    | eintr => cases hend
    | err => cases hend

/-! ## The client's side -/

/-- Two states that differ in the copy only. -/
structure SameRelay (st st' : RelayState) : Prop where
  writes : st.writes = st'.writes
  calls : st.calls = st'.calls
  received : st.received = st'.received
  bytesRelayed : st.stats.bytesRelayed = st'.stats.bytesRelayed

theorem captureChunk_bytesRelayed (limit : Nat) (realloc : Nat → Bool) (s : FetchStats) (cap : Nat) (chunk : List Byte) :
    (captureChunk limit realloc s cap chunk).1.bytesRelayed = s.bytesRelayed := by
  rcases captureChunk_cases limit realloc s cap chunk with ⟨-, hc⟩ | hc | ⟨-, -, hc⟩ <;> rw [hc]
  rfl

theorem SameRelay.afterSend {st st' : RelayState} (h : SameRelay st st') (chunk : List Byte) :
    SameRelay (st.afterSend chunk) (st'.afterSend chunk) := by
  constructor <;> simp only [RelayState.afterSend, noteStatus_bytesRelayed]
  · rw [h.writes]
  · rw [h.writes, h.calls]
  · rw [h.received]
  · exact h.bytesRelayed

theorem SameRelay.relayed {st st' : RelayState} (h : SameRelay st st') (limit limit' : Nat) (realloc realloc' : Nat → Bool)
    (chunk : List Byte) :
    SameRelay ((st.afterSend chunk).relayed limit realloc chunk) ((st'.afterSend chunk).relayed limit' realloc' chunk) := by
  obtain ⟨s, heq, hbytes, -⟩ := relayed_stats limit realloc st chunk
  obtain ⟨s', heq', hbytes', -⟩ := relayed_stats limit' realloc' st' chunk
  have hsent := h.afterSend chunk
  rw [heq, heq']
  refine ⟨hsent.writes, hsent.calls, hsent.received, ?_⟩
  show (captureChunk limit realloc s st.cap chunk).1.bytesRelayed = (captureChunk limit' realloc' s' st'.cap chunk).1.bytesRelayed
  rw [captureChunk_bytesRelayed, captureChunk_bytesRelayed, hbytes, hbytes', h.bytesRelayed]

/-- The loop ends alike and sends the same, whatever becomes of the copy. -/
theorem relayLoop_same (limit limit' : Nat) (realloc realloc' : Nat → Bool) (chunks : List (RecvOutcome relayChunkSize))
    {st st' : RelayState} (h : SameRelay st st') :
    (relayLoop limit realloc chunks st).1 = (relayLoop limit' realloc' chunks st').1 ∧
      SameRelay (relayLoop limit realloc chunks st).2 (relayLoop limit' realloc' chunks st').2 := by
  induction chunks generalizing st st' with
  | nil => exact ⟨rfl, h⟩
  | cons o os ih =>
    cases o with
    | data chunk =>
      rw [relayLoop_data, relayLoop_data, h.writes]
      split
      · exact ⟨rfl, h.afterSend chunk.bytes⟩
      · exact ih (h.relayed limit limit' realloc realloc' chunk.bytes)
    | eof => exact ⟨rfl, h⟩
    | eagain => exact ⟨rfl, h⟩
    | eintr => exact ⟨rfl, h⟩
    | err => exact ⟨rfl, h⟩

/-! ## The whole fetch -/

variable {allowPrivate : Bool} {env : FetchEnv} {url : ParsedUrl}

/-- The state of the loop after `n` chunks. -/
def FetchEnv.relayState (env : FetchEnv) (limit n : Nat) : RelayState :=
  (relayLoop limit env.realloc (env.chunks.take n) { writes := env.clientWrites }).2

/-- The `realloc` calls of a fetch. -/
def FetchEnv.reallocs (env : FetchEnv) (limit : Nat) : List ReallocCall :=
  relayReallocs limit env.realloc env.chunks { writes := env.clientWrites }

/-- Only a whole copy leaves the fetch. -/
theorem fetchAndRelay_failed (hst : (fetchAndRelay allowPrivate env url limit).status ≠ .ok) :
    (fetchAndRelay allowPrivate env url limit).stats.capture = none ∧
      (fetchAndRelay allowPrivate env url limit).stats.captureLen = 0 := by
  revert hst
  unfold fetchAndRelay
  dsimp only
  split
  · split
    · exact fun _ => ⟨rfl, rfl⟩
    · intro hst
      rw [FetchStats.settle, if_neg hst]
      exact ⟨rfl, rfl⟩
  · exact fun _ => ⟨rfl, rfl⟩

/-- The calls on the client's descriptor and the result do not depend on the
copy. -/
theorem fetchAndRelay_same (allowPrivate : Bool) (env : FetchEnv) (url : ParsedUrl) (limit limit' : Nat)
    (realloc' : Nat → Bool) :
    (fetchAndRelay allowPrivate env url limit).toClient =
        (fetchAndRelay allowPrivate { env with realloc := realloc' } url limit').toClient ∧
      (fetchAndRelay allowPrivate env url limit).status =
        (fetchAndRelay allowPrivate { env with realloc := realloc' } url limit').status := by
  have hstart : SameRelay { writes := env.clientWrites } { writes := env.clientWrites } := ⟨rfl, rfl, rfl, rfl⟩
  obtain ⟨hended, hsame⟩ := relayLoop_same limit limit' env.realloc realloc' env.chunks hstart
  unfold fetchAndRelay
  dsimp only
  split
  · split
    · exact ⟨rfl, rfl⟩
    · exact ⟨hsame.calls, by dsimp only; rw [hended, hsame.bytesRelayed]⟩
  · exact ⟨rfl, rfl⟩

/-- A fetch that ends well hands out all it received, or nothing. -/
theorem fetchAndRelay_copied (hpos : 0 < limit) (hlimit : limit < 2 ^ 62)
    (hok : (fetchAndRelay allowPrivate env url limit).status = .ok) :
    let r := fetchAndRelay allowPrivate env url limit
    (r.stats.captureOverflow = false ↔ r.received.length ≤ limit ∧ ∀ c ∈ env.reallocs limit, c.ok = true) ∧
      (r.stats.captureOverflow = false → r.stats.capture = some r.received ∧ r.stats.captureLen = r.received.length) ∧
      (r.stats.captureOverflow = true → r.stats.capture = none ∧ r.stats.captureLen = 0) := by
  obtain ⟨st, hloop, hrelayed, hstats, hrecv⟩ := fetchAndRelay_ok hok
  have hinv := relayLoop_start hloop (by decide)
  have hcap := @relayLoop_captureInv limit env.realloc hpos hlimit env.chunks _ (.start limit env.clientWrites)
  have hover := @relayLoop_overflow limit env.realloc hpos hlimit env.chunks { writes := env.clientWrites } (.start _ _)
    (.start limit env.clientWrites)
  rw [hloop] at hcap hover
  dsimp only
  rw [hstats, hrecv]
  refine ⟨?_, fun hov => ?_, fun hov => ?_⟩
  · rw [hover rfl]
    exact ⟨fun h => h.2, fun h => ⟨rfl, h⟩⟩
  · obtain ⟨hcopy, hlen⟩ := hinv.copy hov (by omega)
    refine ⟨?_, hlen⟩
    cases hsome : st.stats.capture with
    | none =>
      rw [hinv.relayed, ← hcopy, hsome] at hrelayed
      exact absurd rfl hrelayed
    | some data => rw [← hcopy, hsome, Option.getD_some]
  · have hnone := hcap.dropped hov
    refine ⟨hnone, ?_⟩
    rw [← hcap.copy_len, hnone]
    rfl

/-- In every state of the loop the copy fits its capacity, the capacity fits
the limit, and the doubling for a further chunk ends with room for it. A fetch
that ends well hands out all it received exactly where that fits the limit and
no `realloc` failed; any other hands out nothing; and the client is sent the
same bytes with any limit and any failures. -/
theorem fetchAndRelay_capture (allowPrivate : Bool) (env : FetchEnv) (url : ParsedUrl) (limit : Nat) (hpos : 0 < limit)
    (hlimit : limit < 2 ^ 62) :
    let r := fetchAndRelay allowPrivate env url limit
    (∀ n, CaptureInv limit (env.relayState limit n) ∧ ∀ chunk : Chunk relayChunkSize,
      let need := (env.relayState limit n).stats.captureLen + chunk.bytes.length
      need ≤ limit → need ≤ doubleTo need (firstWant (env.relayState limit n).cap) need) ∧
    (r.status = .ok → wholeStream env.chunks = some r.received ∧
      (r.stats.capture ≠ none ↔ r.received.length ≤ limit ∧ ∀ c ∈ env.reallocs limit, c.ok = true) ∧
      (r.stats.capture ≠ none → r.stats.capture = some r.received ∧ r.stats.captureLen = r.received.length) ∧
      (r.stats.capture = none → r.stats.captureLen = 0 ∧ r.stats.captureOverflow = true)) ∧
    (r.status ≠ .ok → r.stats.capture = none ∧ r.stats.captureLen = 0) ∧
    ∀ limit' realloc', r.toClient = (fetchAndRelay allowPrivate { env with realloc := realloc' } url limit').toClient ∧
      r.status = (fetchAndRelay allowPrivate { env with realloc := realloc' } url limit').status := by
  refine ⟨fun n => ?_, fun hok => ?_, fetchAndRelay_failed, fetchAndRelay_same allowPrivate env url limit⟩
  · have hinv : CaptureInv limit (env.relayState limit n) := relayLoop_captureInv hpos hlimit (.start limit env.clientWrites)
    exact ⟨hinv, fun chunk hneed => (wantedCap_bounds hlimit hinv.cap_le_limit hneed).1⟩
  · obtain ⟨hover, hkept, hdropped⟩ := fetchAndRelay_copied hpos hlimit hok
    refine ⟨fetchAndRelay_stream hok, ?_⟩
    cases hov : (fetchAndRelay allowPrivate env url limit).stats.captureOverflow with
    | false =>
      obtain ⟨hcopy, hlen⟩ := hkept hov
      have hsome : (fetchAndRelay allowPrivate env url limit).stats.capture ≠ none := by simp [hcopy]
      exact ⟨⟨fun _ => hover.1 hov, fun _ => hsome⟩, fun _ => ⟨hcopy, hlen⟩, fun hnone => absurd hnone hsome⟩
    | true =>
      obtain ⟨hnone, hzero⟩ := hdropped hov
      refine ⟨⟨fun hsome => absurd hnone hsome, fun h => ?_⟩, fun hsome => absurd hnone hsome, fun _ => ⟨hzero, rfl⟩⟩
      rw [hover.2 h] at hov
      cases hov

/-- An origin that answers "HTTP/1.0 200 OK" in two pieces and closes. -/
def shortAnswer : FetchEnv :=
  let addr := Sockaddr.inet ![93, 184, 216, 34]
  ⟨⟨none, some [addr], fun _ => ⟨some 7, true, .ok, true, true, some addr⟩⟩, [],
    [.data ⟨bytes "HTTP/1.0", by decide, by decide⟩, .data ⟨bytes " 200 OK", by decide, by decide⟩, .eof], [],
    fun _ => true⟩

theorem fetchAndRelay_capture_short :
    (fetchAndRelay false shortAnswer ⟨bytes "a.com", 80, bytes "/"⟩ 15).stats.capture = some (bytes "HTTP/1.0 200 OK") ∧
      (fetchAndRelay false shortAnswer ⟨bytes "a.com", 80, bytes "/"⟩ 14).stats.captureOverflow = true := by
  obtain ⟨-, hkept, -⟩ := fetchAndRelay_capture false shortAnswer ⟨bytes "a.com", 80, bytes "/"⟩ 15 (by decide) (by decide)
  obtain ⟨-, hdropped, -⟩ := fetchAndRelay_capture false shortAnswer ⟨bytes "a.com", 80, bytes "/"⟩ 14 (by decide) (by decide)
  obtain ⟨-, hiff, hcopy, -⟩ := hkept (by decide +kernel)
  obtain ⟨-, hiff', -, hnone⟩ := hdropped (by decide +kernel)
  refine ⟨(hcopy (hiff.2 (by decide +kernel))).1.trans (by decide +kernel), (hnone ?_).2⟩
  by_contra hsome
  exact absurd (hiff'.1 hsome).1 (by decide +kernel)

end SecureProxy
