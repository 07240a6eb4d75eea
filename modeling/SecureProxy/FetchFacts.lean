/-
What `fetch_and_relay` reports: its statistics tell the truth about what has
reached the client, and a copy it hands out is the whole response.
-/
import SecureProxy.Fetch
import SecureProxy.OriginConnectFacts

namespace SecureProxy

open Bytes

/-! ## The connection -/

theorem connectLoop_ok_iff (allowPrivate : Bool) (attempt : Nat → Attempt) (list : List Sockaddr) : ∀ i,
    (connectLoop allowPrivate attempt i list).status = .ok ↔ (connectLoop allowPrivate attempt i list).outFd.isSome := by
  induction list with
  | nil => intro i; simp [connectLoop]
  | cons addr list ih =>
    intro i
    unfold connectLoop
    dsimp only
    split
    · simp
    · split
      · exact ih (i + 1)
      · split
        · split <;> simp
        · exact ih (i + 1)

/-- A descriptor comes with success, and only with it. -/
theorem originConnect_ok_iff (allowPrivate : Bool) (env : ConnectEnv) (host : List Byte) (port : Nat) :
    (originConnect allowPrivate env host port).status = .ok ↔
      (originConnect allowPrivate env host port).outFd.isSome := by
  unfold originConnect
  split
  · simp
  · split
    · simp
    · simp
    · split
      · simp
      · exact connectLoop_ok_iff ..

/-! ## The relay loop -/

/-- Between two chunks: what has been counted and copied is what has been
received. -/
structure RelayInv (limit : Nat) (st : RelayState) : Prop where
  relayed : st.stats.bytesRelayed = st.received.length
  quiet : st.received = [] ↔ st.calls = []
  copy : st.stats.captureOverflow = false → limit ≠ 0 →
    st.stats.capture.getD [] = st.received ∧ st.stats.captureLen = st.received.length
  dropped : st.stats.captureOverflow = true ∨ limit = 0 → st.stats.capture = none

/-- A chunk that has been sent. -/
def RelayState.afterSend (st : RelayState) (chunk : List Byte) : RelayState :=
  { st.noteStatus chunk with
    received := st.received ++ chunk
    writes := (sendAll chunk st.writes).rest
    calls := st.calls ++ (sendAll chunk st.writes).calls }

section

variable (st : RelayState) (chunk : List Byte)

@[simp] theorem noteStatus_writes : (st.noteStatus chunk).writes = st.writes := by
  unfold RelayState.noteStatus; split <;> rfl
@[simp] theorem noteStatus_calls : (st.noteStatus chunk).calls = st.calls := by
  unfold RelayState.noteStatus; split <;> rfl
@[simp] theorem noteStatus_bytesRelayed : (st.noteStatus chunk).stats.bytesRelayed = st.stats.bytesRelayed := by
  unfold RelayState.noteStatus; split <;> rfl
@[simp] theorem noteStatus_capture : (st.noteStatus chunk).stats.capture = st.stats.capture := by
  unfold RelayState.noteStatus; split <;> rfl
@[simp] theorem noteStatus_captureLen : (st.noteStatus chunk).stats.captureLen = st.stats.captureLen := by
  unfold RelayState.noteStatus; split <;> rfl
@[simp] theorem noteStatus_captureOverflow :
    (st.noteStatus chunk).stats.captureOverflow = st.stats.captureOverflow := by
  unfold RelayState.noteStatus; split <;> rfl
@[simp] theorem noteStatus_cap : (st.noteStatus chunk).cap = st.cap := by
  unfold RelayState.noteStatus; split <;> rfl

end

theorem relayLoop_data (limit : Nat) (realloc : Nat → Bool) (chunk : Chunk relayChunkSize)
    (rest : List (RecvOutcome relayChunkSize)) (st : RelayState) :
    relayLoop limit realloc (.data chunk :: rest) st =
      if (sendAll chunk.bytes st.writes).rc = none then (.sendFailed, st.afterSend chunk.bytes)
      else relayLoop limit realloc rest ((st.afterSend chunk.bytes).relayed limit realloc chunk.bytes) := by
  simp only [relayLoop, noteStatus_writes, noteStatus_calls, RelayState.afterSend]
  cases (sendAll chunk.bytes st.writes).rc <;> rfl

/-- A chunk is added to the copy whole, or the copy is given up. -/
theorem captureChunk_cases (limit : Nat) (realloc : Nat → Bool) (s : FetchStats) (cap : Nat) (chunk : List Byte) :
    ((limit = 0 ∨ s.captureOverflow = true) ∧ (captureChunk limit realloc s cap chunk).1 = s) ∨
    (captureChunk limit realloc s cap chunk).1 = s.dropCapture ∨
    (limit ≠ 0 ∧ s.captureOverflow = false ∧ (captureChunk limit realloc s cap chunk).1 =
      { s with capture := some ((s.capture.getD []).take s.captureLen ++ chunk),
               captureLen := s.captureLen + chunk.length }) := by
  unfold captureChunk
  split
  · rename_i h
    exact .inl ⟨by simpa using h, rfl⟩
  · rename_i h
    have h : limit ≠ 0 ∧ s.captureOverflow = false := by simpa using h
    split
    · exact .inr (.inl rfl)
    · split
      · exact .inr (.inl rfl)
      · exact .inr (.inr ⟨h.1, h.2, rfl⟩)

/-- What a relayed chunk does to the statistics of the copy. -/
theorem relayed_stats (limit : Nat) (realloc : Nat → Bool) (st : RelayState) (chunk : List Byte) :
    ∃ s, (st.afterSend chunk).relayed limit realloc chunk =
        { st.afterSend chunk with stats := (captureChunk limit realloc s st.cap chunk).1,
                                  cap := (captureChunk limit realloc s st.cap chunk).2 } ∧
      s.bytesRelayed = st.stats.bytesRelayed + chunk.length ∧ s.capture = st.stats.capture ∧
      s.captureLen = st.stats.captureLen ∧ s.captureOverflow = st.stats.captureOverflow := by
  have hcap : (st.afterSend chunk).cap = st.cap := by simp [RelayState.afterSend]
  refine ⟨_, by rw [RelayState.relayed, hcap], ?_, ?_, ?_, ?_⟩ <;> simp [RelayState.afterSend]

theorem RelayInv.step {limit : Nat} {realloc : Nat → Bool} {st : RelayState} (h : RelayInv limit st)
    (chunk : Chunk relayChunkSize) : RelayInv limit ((st.afterSend chunk.bytes).relayed limit realloc chunk.bytes) := by
  obtain ⟨s, heq, h1, h2, h3, h4⟩ := relayed_stats limit realloc st chunk.bytes
  have hquiet : st.received ++ chunk.bytes = [] ↔ st.calls ++ (sendAll chunk.bytes st.writes).calls = [] := by
    simp [chunk.nonempty, sendAll_calls_ne_nil]
  have hrel : s.bytesRelayed = (st.received ++ chunk.bytes).length := by rw [h1, h.relayed, List.length_append]
  rw [heq]
  rcases captureChunk_cases limit realloc s st.cap chunk.bytes with ⟨hoff, hc⟩ | hc | ⟨hlim, hov, hc⟩ <;> rw [hc]
  · refine ⟨hrel, hquiet, fun hov hlim => ?_, fun _ => ?_⟩
    · rcases hoff with h0 | h0
      · exact absurd h0 hlim
      · exact absurd (h0.symm.trans hov) (by decide)
    · exact h2.trans (h.dropped (h4 ▸ hoff.symm))
  · exact ⟨hrel, hquiet, fun hov => absurd hov (by simp [FetchStats.dropCapture]), fun _ => rfl⟩
  · obtain ⟨hcap, hlen⟩ := h.copy (h4 ▸ hov) hlim
    refine ⟨hrel, hquiet, fun _ _ => ⟨?_, ?_⟩, fun hor => ?_⟩
    · show (s.capture.getD []).take s.captureLen ++ chunk.bytes = st.received ++ chunk.bytes
      rw [h2, h3, hcap, hlen, List.take_length]
    · show s.captureLen + chunk.bytes.length = (st.received ++ chunk.bytes).length
      rw [h3, hlen, List.length_append]
    · rcases hor with h0 | h0
      · exact absurd (hov.symm.trans h0) (by decide)
      · exact absurd h0 hlim

/-- How a loop ends that keeps `P` from chunk to chunk: between two chunks, or
inside one that could not be sent. -/
inductive RelayEnds (P : RelayState → Prop) : RelayEnd × RelayState → Prop
  | between {ended : RelayEnd} {st : RelayState} : ended ≠ .sendFailed → P st → RelayEnds P (ended, st)
  | lost {st : RelayState} {chunk : Chunk relayChunkSize} : (sendAll chunk.bytes st.writes).rc = none → P st →
      RelayEnds P (.sendFailed, st.afterSend chunk.bytes)

theorem relayLoop_ends {limit : Nat} {realloc : Nat → Bool} {P : RelayState → Prop}
    (hstep : ∀ (st : RelayState) (chunk : Chunk relayChunkSize), P st →
      P ((st.afterSend chunk.bytes).relayed limit realloc chunk.bytes))
    (chunks : List (RecvOutcome relayChunkSize)) {st : RelayState} (h : P st) :
    RelayEnds P (relayLoop limit realloc chunks st) := by
  induction chunks generalizing st with
  | nil => exact .between (by decide) h
  | cons o os ih =>
    cases o with
    | data chunk =>
      rw [relayLoop_data]
      split
      · rename_i hrc
        exact .lost hrc h
      · exact ih (hstep st chunk h)
    | eof => exact .between (by decide) h
    | eagain => exact .between (by decide) h
    | eintr => exact .between (by decide) h
    | err => exact .between (by decide) h

theorem RelayInv.start (limit : Nat) (writes : List WriteOutcome) : RelayInv limit { writes } :=
  ⟨rfl, by simp, fun _ _ => ⟨rfl, rfl⟩, fun _ => rfl⟩

/-- The invariant holds when the loop ends, unless the client was lost. -/
theorem relayLoop_start {limit : Nat} {realloc : Nat → Bool} {chunks : List (RecvOutcome relayChunkSize)}
    {writes : List WriteOutcome} {ended : RelayEnd} {st : RelayState}
    (hloop : relayLoop limit realloc chunks { writes } = (ended, st)) (hend : ended ≠ .sendFailed) :
    RelayInv limit st := by
  have hends := @relayLoop_ends limit realloc (RelayInv limit) (fun _ chunk h => h.step chunk) chunks _ (.start limit writes)
  rw [hloop] at hends
  cases hends with
  | between _ h => exact h
  | lost => exact absurd rfl hend

/-- All that comes before the peer closes, if it does close. -/
def wholeStream {cap : Nat} : List (RecvOutcome cap) → Option (List Byte)
  | .eof :: _ => some []
  | .data chunk :: rest => (wholeStream rest).map (chunk.bytes ++ ·)
  | _ => none

/-- A loop that ends at the close has received the whole stream. -/
theorem relayLoop_eof {limit : Nat} {realloc : Nat → Bool} {chunks : List (RecvOutcome relayChunkSize)}
    {st : RelayState} (hend : (relayLoop limit realloc chunks st).1 = .eof) :
    ∃ s, wholeStream chunks = some s ∧ (relayLoop limit realloc chunks st).2.received = st.received ++ s := by
  induction chunks generalizing st with
  | nil => cases hend
  | cons o os ih =>
    cases o with
    | data chunk =>
      rw [relayLoop_data] at hend ⊢
      split at hend
      · cases hend
      · rename_i hrc
        rw [if_neg hrc]
        obtain ⟨s, hs, hrecv⟩ := ih hend
        refine ⟨chunk.bytes ++ s, by simp [wholeStream, hs], ?_⟩
        rw [hrecv, ← List.append_assoc]
        rfl
    | eof => exact ⟨[], rfl, by simp [relayLoop]⟩
    | eagain => cases hend
    | eintr => cases hend
    | err => cases hend

/-- The client is lost only after a call that took nothing. -/
theorem relayLoop_sendFailed {limit : Nat} {realloc : Nat → Bool} {chunks : List (RecvOutcome relayChunkSize)}
    {st : RelayState} (hend : (relayLoop limit realloc chunks st).1 = .sendFailed) :
    ∃ c ∈ (relayLoop limit realloc chunks st).2.calls, c.accepted = 0 := by
  have hends := @relayLoop_ends limit realloc (fun _ => True) (fun _ _ h => h) chunks st trivial
  generalize relayLoop limit realloc chunks st = r at hends hend
  cases hends with
  | between hne => exact absurd hend hne
  | lost hrc =>
    obtain ⟨c, hc, hzero⟩ := sendAll_rc_none hrc
    exact ⟨c, List.mem_append_right _ hc, hzero⟩

/-! ## The whole fetch -/

theorem connectLoop_status (allowPrivate : Bool) (attempt : Nat → Attempt) (list : List Sockaddr) : ∀ i,
    (connectLoop allowPrivate attempt i list).status ∈ [FetchStatus.ok, .errConnect, .errUnsafeAddress] := by
  induction list with
  | nil => intro i; simp [connectLoop]
  | cons addr list ih =>
    intro i
    unfold connectLoop
    dsimp only
    split
    · simp
    · split
      · exact ih (i + 1)
      · split
        · split <;> simp
        · exact ih (i + 1)

theorem originConnect_status (allowPrivate : Bool) (env : ConnectEnv) (host : List Byte) (port : Nat) :
    (originConnect allowPrivate env host port).status ∈
      [FetchStatus.ok, .errDns, .errConnect, .errUnsafeAddress] := by
  unfold originConnect
  split
  · simp
  · split
    · simp
    · simp
    · rename_i list _ _
      split
      · simp
      · have := connectLoop_status allowPrivate env.attempt list 0
        simp only [List.mem_cons, List.not_mem_nil, or_false] at this ⊢
        tauto

/-- A fetch ends at the connection, at the request, or in the relay loop. -/
inductive FetchCase (allowPrivate : Bool) (env : FetchEnv) (url : ParsedUrl) (limit : Nat) (r : FetchResult) : Prop
  | connect : (originConnect allowPrivate env.conn url.host url.port).status ≠ .ok →
      r.status = (originConnect allowPrivate env.conn url.host url.port).status → r.toClient = [] →
      r.stats.capture = none → FetchCase allowPrivate env url limit r
  | request : (originConnect allowPrivate env.conn url.host url.port).status = .ok →
      (sendAll (originRequest url) env.requestWrites).rc = none → r.status = .errSend → r.toClient = [] →
      r.stats.capture = none → FetchCase allowPrivate env url limit r
  | relay (ended : RelayEnd) (st : RelayState) :
      (originConnect allowPrivate env.conn url.host url.port).status = .ok →
      (sendAll (originRequest url) env.requestWrites).rc ≠ none →
      relayLoop limit env.realloc env.chunks { writes := env.clientWrites } = (ended, st) →
      r.status = relayStatus st.stats.bytesRelayed ended → r.stats = st.stats.settle r.status →
      r.toClient = st.calls → r.received = st.received → FetchCase allowPrivate env url limit r

theorem fetchAndRelay_case (allowPrivate : Bool) (env : FetchEnv) (url : ParsedUrl) (limit : Nat) :
    FetchCase allowPrivate env url limit (fetchAndRelay allowPrivate env url limit) := by
  have hfd := originConnect_ok_iff allowPrivate env.conn url.host url.port
  unfold fetchAndRelay
  dsimp only
  split
  · rename_i fd hok _
    split
    · rename_i hrc
      exact .request hok hrc rfl rfl rfl
    · rename_i n hrc
      exact .relay _ _ hok (by simp [hrc]) rfl rfl rfl rfl rfl
  · rename_i hne
    refine .connect (fun hok => ?_) rfl rfl rfl
    obtain ⟨fd, hsome⟩ := Option.isSome_iff_exists.1 (hfd.1 hok)
    exact hne fd hok hsome

/-- After these statuses the proxy may still answer for the origin. -/
def FetchResult.Quiet (r : FetchResult) : Prop :=
  r.status = .errUnsafeAddress ∨ r.status = .errDns ∨ r.status = .errConnect ∨
    (r.status = .errTimeout ∨ r.status = .errRecv) ∧ r.stats.bytesRelayed = 0

/-- A relay never ends with a status of the connection. -/
theorem relayStatus_ne (n : Nat) (ended : RelayEnd) :
    relayStatus n ended ≠ .errUnsafeAddress ∧ relayStatus n ended ≠ .errDns ∧ relayStatus n ended ≠ .errConnect := by
  cases ended with
  | eof =>
    simp only [relayStatus]
    split <;> decide
  | sendFailed => simp [relayStatus]
  | timeout => simp [relayStatus]
  | recvFailed => simp [relayStatus]

theorem settle_bytesRelayed (s : FetchStats) (status : FetchStatus) :
    (s.settle status).bytesRelayed = s.bytesRelayed := by
  unfold FetchStats.settle
  split <;> rfl

section

variable {allowPrivate : Bool} {env : FetchEnv} {url : ParsedUrl} {limit : Nat}

/-- Where the proxy still answers, not a byte has been handed to the client. -/
theorem fetchAndRelay_quiet (h : (fetchAndRelay allowPrivate env url limit).Quiet) :
    (fetchAndRelay allowPrivate env url limit).toClient = [] := by
  cases fetchAndRelay_case allowPrivate env url limit with
  | connect _ _ hcl => exact hcl
  | request _ _ _ hcl => exact hcl
  | relay ended st _ _ hloop hst hstats hcl hrecv =>
    have hend : ended ≠ .sendFailed := by
      rintro rfl
      rw [FetchResult.Quiet, hst] at h
      simp [relayStatus] at h
    have hinv := relayLoop_start hloop hend
    have hzero : st.stats.bytesRelayed = 0 := by
      rw [FetchResult.Quiet, hstats, settle_bytesRelayed, hst] at h
      obtain ⟨h1, h2, h3⟩ := relayStatus_ne st.stats.bytesRelayed ended
      rcases h with h | h | h | h
      · exact absurd h h1
      · exact absurd h h2
      · exact absurd h h3
      · exact h.2
    rw [hcl]
    exact hinv.quiet.1 (List.length_eq_zero_iff.1 (hinv.relayed ▸ hzero))

/-- A fetch ends well only in a relay loop that ended at the close, with
something relayed. -/
theorem fetchAndRelay_ok (hok : (fetchAndRelay allowPrivate env url limit).status = .ok) :
    ∃ st, relayLoop limit env.realloc env.chunks { writes := env.clientWrites } = (.eof, st) ∧
      st.stats.bytesRelayed ≠ 0 ∧ (fetchAndRelay allowPrivate env url limit).stats = st.stats ∧
      (fetchAndRelay allowPrivate env url limit).received = st.received := by
  cases fetchAndRelay_case allowPrivate env url limit with
  | connect hne hst => exact absurd (hst.symm.trans hok) hne
  | request _ _ hst => rw [hok] at hst; cases hst
  | relay ended st _ _ hloop hst hstats _ hrecv =>
    rw [hok] at hst hstats
    cases ended with
    | eof =>
      refine ⟨st, hloop, fun hzero => ?_, hstats.trans (if_pos rfl), hrecv⟩
      rw [hzero] at hst
      cases hst
    | sendFailed => cases hst
    | timeout => cases hst
    | recvFailed => cases hst

/-- A fetch that ends well has received all the origin sent. -/
theorem fetchAndRelay_stream (hok : (fetchAndRelay allowPrivate env url limit).status = .ok) :
    wholeStream env.chunks = some (fetchAndRelay allowPrivate env url limit).received := by
  obtain ⟨st, hloop, -, -, hrecv⟩ := fetchAndRelay_ok hok
  have heof := @relayLoop_eof limit env.realloc env.chunks { writes := env.clientWrites }
  rw [hloop] at heof
  obtain ⟨s, hs, hst⟩ := heof rfl
  rw [hrecv, hs, hst]
  rfl

/-- A copy handed out is the whole of what the origin sent. -/
theorem fetchAndRelay_copy {data : List Byte} (hok : (fetchAndRelay allowPrivate env url limit).status = .ok)
    (hcap : (fetchAndRelay allowPrivate env url limit).stats.capture = some data) :
    data.take (fetchAndRelay allowPrivate env url limit).stats.captureLen =
      (fetchAndRelay allowPrivate env url limit).received := by
  obtain ⟨st, hloop, -, hstats, hrecv⟩ := fetchAndRelay_ok hok
  have hinv := relayLoop_start hloop (by decide)
  rw [hstats] at hcap ⊢
  have hon : ¬ (st.stats.captureOverflow = true ∨ limit = 0) := fun hoff => by
    rw [hinv.dropped hoff] at hcap
    cases hcap
  obtain ⟨hdata, hlen⟩ := hinv.copy (by simpa using fun h => hon (.inl h)) fun h => hon (.inr h)
  rw [hcap, Option.getD_some] at hdata
  rw [hrecv, hdata, hlen, List.take_length]

end

end SecureProxy
