/-
What a fetch reports and passes on against the stream the origin sent.

`recv` may cut the stream anywhere. Only the status code depends on where: it
is read off the first chunk, which may end inside the status line. And `write`
may answer 0: `send_all` then stops early with a short count, and the loop,
which looks for -1 only, counts the whole chunk and goes on with the next.
-/
import SecureProxy.FetchCapture

namespace SecureProxy

open Bytes

/-- The bytes that come before the first `recv` that brings none, and how that
one ends the loop. -/
def originStream {cap : Nat} : List (RecvOutcome cap) → List Byte × RelayEnd
  | [] | .eagain :: _ => ([], .timeout)
  | .eof :: _ => ([], .eof)
  | .eintr :: _ | .err :: _ => ([], .recvFailed)
  | .data chunk :: rest => (chunk.bytes ++ (originStream rest).1, (originStream rest).2)

/-- The bytes of the first chunk, if there is one. -/
def firstBytes {cap : Nat} : List (RecvOutcome cap) → List Byte
  | .data chunk :: _ => chunk.bytes
  | _ => []

/-- An output that takes something whenever it is called. -/
def Working (writes : List WriteOutcome) : Prop := ∀ o ∈ writes, o ≠ .err ∧ o ≠ .ret 0

/-- The fetch gets as far as relaying: the origin is connected and has been
sent the request. -/
def FetchEnv.Relays (allowPrivate : Bool) (env : FetchEnv) (url : ParsedUrl) : Prop :=
  (originConnect allowPrivate env.conn url.host url.port).status = .ok ∧
    (sendAll (originRequest url) env.requestWrites).rc ≠ none

theorem fetchAndRelay_relays {allowPrivate : Bool} {env : FetchEnv} {url : ParsedUrl} (h : env.Relays allowPrivate url)
    (limit : Nat) {ended : RelayEnd} {st : RelayState}
    (hloop : relayLoop limit env.realloc env.chunks { writes := env.clientWrites } = (ended, st)) :
    (fetchAndRelay allowPrivate env url limit).status = relayStatus st.stats.bytesRelayed ended ∧
      (fetchAndRelay allowPrivate env url limit).stats = st.stats.settle (relayStatus st.stats.bytesRelayed ended) ∧
      (fetchAndRelay allowPrivate env url limit).toClient = st.calls := by
  cases fetchAndRelay_case allowPrivate env url limit with
  | connect hne => exact absurd h.1 hne
  | request _ hrc => exact absurd hrc h.2
  | relay ended' st' _ _ hloop' hst hstats hcl _ =>
    obtain ⟨rfl, rfl⟩ := Prod.mk.inj (hloop.symm.trans hloop')
    exact ⟨hst, hst ▸ hstats, hcl⟩

/-- A fetch that does not relay knows nothing of the origin's stream. -/
theorem fetchAndRelay_no_relay {allowPrivate : Bool} {env : FetchEnv} {url : ParsedUrl} (h : ¬ env.Relays allowPrivate url)
    (limit : Nat) :
    (fetchAndRelay allowPrivate env url limit).status =
        (if (originConnect allowPrivate env.conn url.host url.port).status = .ok then .errSend
          else (originConnect allowPrivate env.conn url.host url.port).status) ∧
      (fetchAndRelay allowPrivate env url limit).stats = {} ∧
      (fetchAndRelay allowPrivate env url limit).toClient = [] := by
  have hfd := originConnect_ok_iff allowPrivate env.conn url.host url.port
  unfold FetchEnv.Relays at h
  unfold fetchAndRelay
  dsimp only
  split
  · rename_i fd hok _
    split
    · rw [if_pos hok]
      exact ⟨rfl, rfl, rfl⟩
    · rename_i n hrc
      exact absurd ⟨hok, by simp [hrc]⟩ h
  · rename_i hne
    rw [if_neg fun hok => ?_]
    · exact ⟨rfl, rfl, rfl⟩
    · obtain ⟨fd, hsome⟩ := Option.isSome_iff_exists.1 (hfd.1 hok)
      exact hne fd hok hsome

/-! ## A working output -/

theorem sendAllLoop_working {writes : List WriteOutcome} {total : Nat} {buf : List Byte} (h : Working writes) :
    (sendAllLoop total buf writes).rc ≠ none ∧ Working (sendAllLoop total buf writes).rest := by
  induction writes generalizing total buf with
  | nil => exact ⟨by simp [sendAllLoop], h⟩
  | cons o os ih =>
    have hos : Working os := fun o ho => h o (List.mem_cons_of_mem _ ho)
    obtain ⟨herr, hzero⟩ := h o List.mem_cons_self
    unfold sendAllLoop
    split
    · exact ⟨by simp, h⟩
    · cases o with
      | eintr => exact ih hos
      | err => exact absurd rfl herr
      | ret n =>
        dsimp only
        split
        · exact ⟨by simp, hos⟩
        · exact ih hos

theorem sendAll_working {writes : List WriteOutcome} (h : Working writes) (buf : List Byte) :
    (sendAll buf writes).rc ≠ none ∧ Working (sendAll buf writes).rest :=
  sendAllLoop_working h

/-- With a working output the loop takes in the stream, and ends as it does. -/
theorem relayLoop_working {limit : Nat} {realloc : Nat → Bool} {chunks : List (RecvOutcome relayChunkSize)}
    {st : RelayState} (h : Working st.writes) :
    (relayLoop limit realloc chunks st).1 = (originStream chunks).2 ∧
      (relayLoop limit realloc chunks st).2.received = st.received ++ (originStream chunks).1 := by
  induction chunks generalizing st with
  | nil => simp [relayLoop, originStream]
  | cons o os ih =>
    cases o with
    | data chunk =>
      obtain ⟨hrc, hrest⟩ := sendAll_working h chunk.bytes
      obtain ⟨hend, hrecv⟩ := @ih ((st.afterSend chunk.bytes).relayed limit realloc chunk.bytes) hrest
      rw [relayLoop_data, if_neg hrc]
      refine ⟨hend, ?_⟩
      rw [hrecv, originStream, ← List.append_assoc]
      rfl
    | eof => simp [relayLoop, originStream]
    | eagain => simp [relayLoop, originStream]
    | eintr => simp [relayLoop, originStream]
    | err => simp [relayLoop, originStream]

theorem originStream_end (chunks : List (RecvOutcome relayChunkSize)) : (originStream chunks).2 ≠ .sendFailed := by
  induction chunks with
  | nil => decide
  | cons o os ih =>
    cases o with
    | data chunk => exact ih
    | eof => simp [originStream]
    | eagain => simp [originStream]
    | eintr => simp [originStream]
    | err => simp [originStream]

/-! ## The statistics of a stream -/

/-- What is counted and copied of a stream where every `realloc` succeeds. -/
def streamStats (limit : Nat) (received : List Byte) : FetchStats :=
  { bytesRelayed := received.length
    capture := if limit = 0 ∨ limit < received.length ∨ received = [] then none else some received
    captureLen := if limit = 0 ∨ limit < received.length then 0 else received.length
    captureOverflow := decide (limit ≠ 0 ∧ limit < received.length) }

/-- The statistics are those of what has been received, the status aside. -/
def StatsOf (limit : Nat) (st : RelayState) : Prop :=
  { st.stats with originStatus := 0 } = streamStats limit st.received

/-- A chunk takes the statistics of the bytes before it to those of the bytes
with it. -/
theorem captureChunk_stream {limit cap : Nat} {received chunk : List Byte} {s : FetchStats} (hchunk : chunk ≠ [])
    (hs : { s with originStatus := 0 } =
      { streamStats limit received with bytesRelayed := (received ++ chunk).length }) :
    { (captureChunk limit (fun _ => true) s cap chunk).1 with originStatus := 0 } = streamStats limit (received ++ chunk) := by
  have hpos : 0 < chunk.length := List.length_pos_iff.2 hchunk
  obtain ⟨relayed, status, capture, len, overflow⟩ := s
  simp only [streamStats, FetchStats.mk.injEq] at hs
  obtain ⟨rfl, -, rfl, rfl, rfl⟩ := hs
  by_cases hoff : limit = 0
  · simp [captureChunk, streamStats, hoff]
  · by_cases hover : limit < received.length
    · simp [captureChunk, streamStats, hoff, hover, Nat.lt_add_right]
    · by_cases hlong : limit < received.length + chunk.length
      · simp [captureChunk, streamStats, FetchStats.dropCapture, hoff, hover, hlong]
      · have hcopy : (if received = [] then none else some received).getD [] = received := by
          split
          · simp [*]
          · rfl
        simp [captureChunk, streamStats, hoff, hover, hlong, hchunk, hcopy]

theorem StatsOf.step {limit : Nat} {st : RelayState} (h : StatsOf limit st) (chunk : Chunk relayChunkSize) :
    StatsOf limit ((st.afterSend chunk.bytes).relayed limit (fun _ => true) chunk.bytes) := by
  obtain ⟨s, heq, hbytes, hcapture, hlen, hover⟩ := relayed_stats limit (fun _ => true) st chunk.bytes
  have hrelayed := congrArg FetchStats.bytesRelayed h
  have hold : { s with originStatus := 0 } =
      { streamStats limit st.received with bytesRelayed := (st.received ++ chunk.bytes).length } := by
    rw [← h, List.length_append]
    simp only [streamStats] at hrelayed
    simp [hbytes, hcapture, hlen, hover, hrelayed]
  have hreceived : ((st.afterSend chunk.bytes).relayed limit (fun _ => true) chunk.bytes).received =
      st.received ++ chunk.bytes := rfl
  unfold StatsOf
  rw [hreceived, heq]
  exact captureChunk_stream chunk.nonempty hold

theorem StatsOf.start (limit : Nat) (writes : List WriteOutcome) : StatsOf limit { writes } := by
  simp [StatsOf, streamStats]

/-! ## The status line -/

/-- The status is read off the first twelve bytes. -/
theorem parseOriginStatus_append {buf : List Byte} (h : 12 ≤ buf.length) (rest : List Byte) :
    parseOriginStatus (buf ++ rest) = parseOriginStatus buf := by
  have htake : (buf ++ rest).take 5 = buf.take 5 := List.take_append_of_le_length (by omega)
  have hspace : (buf ++ rest)[8]? = buf[8]? := List.getElem?_append_left (by omega)
  have hcode : ((buf ++ rest).drop 9).take 3 = (buf.drop 9).take 3 := by
    rw [List.drop_append_of_le_length (by omega), List.take_append_of_le_length (by rw [List.length_drop]; omega)]
  simp only [parseOriginStatus, htake, hspace, hcode, List.length_append]
  rw [show decide (buf.length + rest.length < 12) = decide (buf.length < 12) by simp; omega]

theorem parseOriginStatus_short {buf : List Byte} (h : buf.length < 12) : parseOriginStatus buf = 0 := by
  simp [parseOriginStatus, h]

theorem captureChunk_originStatus (limit : Nat) (realloc : Nat → Bool) (s : FetchStats) (cap : Nat) (chunk : List Byte) :
    (captureChunk limit realloc s cap chunk).1.originStatus = s.originStatus := by
  rcases captureChunk_cases limit realloc s cap chunk with ⟨-, hc⟩ | hc | ⟨-, -, hc⟩ <;> rw [hc]
  rfl

/-- The first chunk sets the status, and no later one does. -/
theorem relayed_originStatus (limit : Nat) (realloc : Nat → Bool) (st : RelayState) (chunk : List Byte) :
    ((st.afterSend chunk).relayed limit realloc chunk).firstChunk = false ∧
      ((st.afterSend chunk).relayed limit realloc chunk).stats.originStatus =
        if st.firstChunk then parseOriginStatus chunk else st.stats.originStatus := by
  have hstatus : ((st.afterSend chunk).relayed limit realloc chunk).stats.originStatus =
      (st.noteStatus chunk).stats.originStatus := captureChunk_originStatus ..
  have hfirst : ((st.afterSend chunk).relayed limit realloc chunk).firstChunk = (st.noteStatus chunk).firstChunk := rfl
  rw [hstatus, hfirst]
  unfold RelayState.noteStatus
  cases h : st.firstChunk with
  | true => exact ⟨rfl, rfl⟩
  | false => exact ⟨h, rfl⟩

theorem relayLoop_originStatus {limit : Nat} {realloc : Nat → Bool} {chunks : List (RecvOutcome relayChunkSize)}
    {st : RelayState} (hfirst : st.firstChunk = false) (hend : (relayLoop limit realloc chunks st).1 ≠ .sendFailed) :
    (relayLoop limit realloc chunks st).2.stats.originStatus = st.stats.originStatus := by
  have hends := @relayLoop_ends limit realloc
    (fun s => s.firstChunk = false ∧ s.stats.originStatus = st.stats.originStatus) (fun s chunk hs => ?_) chunks st
    ⟨hfirst, rfl⟩
  · generalize relayLoop limit realloc chunks st = r at hends hend
    cases hends with
    | between _ h => exact h.2
    | lost => exact absurd rfl hend
  · obtain ⟨hlater, hstatus⟩ := relayed_originStatus limit realloc s chunk.bytes
    refine ⟨hlater, ?_⟩
    rw [hstatus, hs.1]
    exact hs.2

/-- The status reported is that of the first chunk. -/
theorem relayLoop_status {limit : Nat} {realloc : Nat → Bool} {chunks : List (RecvOutcome relayChunkSize)}
    {writes : List WriteOutcome} (h : Working writes) :
    (relayLoop limit realloc chunks { writes }).2.stats.originStatus = parseOriginStatus (firstBytes chunks) := by
  cases chunks with
  | nil => rfl
  | cons o os =>
    cases o with
    | data chunk =>
      obtain ⟨hrc, hrest⟩ := sendAll_working h chunk.bytes
      obtain ⟨hfirst, hstatus⟩ := relayed_originStatus limit realloc { writes } chunk.bytes
      rw [relayLoop_data, if_neg hrc, relayLoop_originStatus hfirst, hstatus]
      · rfl
      · rw [(relayLoop_working hrest).1]
        exact originStream_end os
    | eof => rfl
    | eagain => rfl
    | eintr => rfl
    | err => rfl

theorem parseOriginStatus_first (chunks : List (RecvOutcome relayChunkSize)) :
    parseOriginStatus (firstBytes chunks) =
      if (firstBytes chunks).length < 12 then 0 else parseOriginStatus (originStream chunks).1 := by
  split
  · rename_i hshort
    exact parseOriginStatus_short hshort
  · rename_i hlong
    have hprefix : firstBytes chunks <+: (originStream chunks).1 := by
      unfold firstBytes
      split
      · exact List.prefix_append ..
      · exact List.nil_prefix
    obtain ⟨rest, hrest⟩ := hprefix
    rw [← hrest, parseOriginStatus_append (by omega)]

/-! ## However the stream is cut -/

/-- The statistics at the end of a loop over a stream. -/
theorem relayLoop_reports (limit : Nat) (chunks : List (RecvOutcome relayChunkSize)) {writes : List WriteOutcome}
    (h : Working writes) :
    (relayLoop limit (fun _ => true) chunks { writes }).1 = (originStream chunks).2 ∧
      (relayLoop limit (fun _ => true) chunks { writes }).2.stats =
        { streamStats limit (originStream chunks).1 with
          originStatus := if (firstBytes chunks).length < 12 then 0 else parseOriginStatus (originStream chunks).1 } := by
  obtain ⟨hend, hrecv⟩ := @relayLoop_working limit (fun _ => true) chunks { writes } h
  have hstatus := @relayLoop_status limit (fun _ => true) chunks writes h
  have hne := hend ▸ originStream_end chunks
  have hends := @relayLoop_ends limit (fun _ => true) (StatsOf limit) (fun _ chunk h => h.step chunk) chunks _
    (.start limit writes)
  refine ⟨hend, ?_⟩
  rw [parseOriginStatus_first] at hstatus
  rw [← hstatus]
  generalize relayLoop limit (fun _ => true) chunks { writes } = r at hends hrecv hne
  cases hends with
  | lost => exact absurd rfl hne
  | between _ hstats =>
    rw [List.nil_append] at hrecv
    rw [StatsOf, hrecv] at hstats
    rw [← hstats]

theorem settle_originStatus_inj (s : FetchStats) (status : FetchStatus) (a b : Nat) :
    ({ s with originStatus := a } : FetchStats).settle status = ({ s with originStatus := b } : FetchStats).settle status ↔
      a = b := by
  unfold FetchStats.settle
  split <;> simp

/-- **What a fetch reports does not depend on how the stream was cut, exactly
where the status does not**: both first chunks hold the status line up to its
code, or neither does, or there is no code to be found. -/
theorem fetchAndRelay_segmentation (allowPrivate : Bool) (env : FetchEnv) (url : ParsedUrl) (limit : Nat)
    (chunks chunks' : List (RecvOutcome relayChunkSize)) (writes writes' : List WriteOutcome)
    (hstream : originStream chunks = originStream chunks') (hwrites : Working writes) (hwrites' : Working writes') :
    let r := fetchAndRelay allowPrivate { env with chunks, clientWrites := writes, realloc := fun _ => true } url limit
    let r' := fetchAndRelay allowPrivate
      { env with chunks := chunks', clientWrites := writes', realloc := fun _ => true } url limit
    (r.status = r'.status ∧ r.stats = r'.stats) ↔ (env.Relays allowPrivate url →
      ((firstBytes chunks).length < 12 ↔ (firstBytes chunks').length < 12) ∨
        parseOriginStatus (originStream chunks).1 = 0) := by
  obtain ⟨hend, hstats⟩ := relayLoop_reports limit chunks hwrites
  obtain ⟨hend', hstats'⟩ := relayLoop_reports limit chunks' hwrites'
  rw [← hstream] at hend' hstats'
  by_cases hrelays : env.Relays allowPrivate url
  · have hrelays₁ : FetchEnv.Relays allowPrivate { env with chunks, clientWrites := writes, realloc := fun _ => true } url :=
      hrelays
    have hrelays₂ : FetchEnv.Relays allowPrivate
        { env with chunks := chunks', clientWrites := writes', realloc := fun _ => true } url := hrelays
    obtain ⟨hst, hss, -⟩ := fetchAndRelay_relays hrelays₁ limit rfl
    obtain ⟨hst', hss', -⟩ := fetchAndRelay_relays hrelays₂ limit rfl
    simp only [hend, hstats] at hst hss
    simp only [hend', hstats'] at hst' hss'
    dsimp only
    rw [hst, hst', hss, hss', settle_originStatus_inj, eq_self, true_and]
    simp only [hrelays, true_implies]
    by_cases hshort : (firstBytes chunks).length < 12
    · rw [if_pos hshort]
      by_cases hshort' : (firstBytes chunks').length < 12
      · simp [hshort, hshort']
      · simp [hshort, hshort', eq_comm]
    · rw [if_neg hshort]
      by_cases hshort' : (firstBytes chunks').length < 12
      · simp [hshort, hshort']
      · simp [hshort, hshort']
  · have hrelays₁ : ¬ FetchEnv.Relays allowPrivate { env with chunks, clientWrites := writes, realloc := fun _ => true } url :=
      hrelays
    have hrelays₂ : ¬ FetchEnv.Relays allowPrivate
        { env with chunks := chunks', clientWrites := writes', realloc := fun _ => true } url := hrelays
    obtain ⟨hst, hss, -⟩ := fetchAndRelay_no_relay hrelays₁ limit
    obtain ⟨hst', hss', -⟩ := fetchAndRelay_no_relay hrelays₂ limit
    dsimp only
    rw [hst, hst', hss, hss']
    exact iff_of_true ⟨rfl, rfl⟩ fun h => absurd h hrelays

/-- The answer in one piece. -/
def wholeAnswer : List (RecvOutcome relayChunkSize) := [.data ⟨bytes "HTTP/1.0 200 OK", by decide, by decide⟩, .eof]

theorem fetchAndRelay_segmentation_long :
    let url : ParsedUrl := ⟨bytes "a.com", 80, bytes "/"⟩
    let later : List (RecvOutcome relayChunkSize) := [.data ⟨bytes "HTTP/1.0 200", by decide, by decide⟩,
      .data ⟨bytes " OK", by decide, by decide⟩, .eof]
    (fetchAndRelay false { shortAnswer with chunks := wholeAnswer } url 100).stats =
      (fetchAndRelay false { shortAnswer with chunks := later } url 100).stats := by
  intro url later
  have hiff := fetchAndRelay_segmentation false shortAnswer url 100 wholeAnswer later [] [] (by decide +kernel) (by simp [Working])
    (by simp [Working])
  exact (hiff.2 fun _ => .inl (by decide +kernel)).2

/-- Cut inside the status line, the same stream has no status. -/
theorem fetchAndRelay_segmentation_cut :
    let url : ParsedUrl := ⟨bytes "a.com", 80, bytes "/"⟩
    originStream wholeAnswer = originStream shortAnswer.chunks ∧
      (fetchAndRelay false { shortAnswer with chunks := wholeAnswer } url 100).stats.originStatus = 200 ∧
      (fetchAndRelay false shortAnswer url 100).stats.originStatus = 0 := by
  decide +kernel

/-! ## A write that takes nothing -/

/-- How long the chunks of a stream are. -/
def chunkLengths {cap : Nat} : List (RecvOutcome cap) → List Nat
  | .data chunk :: rest => chunk.bytes.length :: chunkLengths rest
  | _ => []

/-- `write` answers 0 to a call made for chunks of these lengths, and has not
failed before. -/
def answersZero : List Nat → List WriteOutcome → Bool
  | [], _ | _ :: _, [] | _ :: _, .err :: _ => false
  | n :: ns, .eintr :: ws => answersZero (n :: ns) ws
  | n :: ns, .ret k :: ws =>
    if k = 0 then true else if k < n then answersZero ((n - k) :: ns) ws else answersZero ns ws

@[simp] theorem answersZero_no_chunk (ws : List WriteOutcome) : answersZero [] ws = false := by cases ws <;> rfl

@[simp] theorem answersZero_no_write (ns : List Nat) : answersZero ns [] = false := by cases ns <;> rfl

theorem answersZero_append {ns ms : List Nat} {ws : List WriteOutcome} (h : answersZero (ns ++ ms) ws = false) :
    answersZero ns ws = false := by
  induction ws generalizing ns with
  | nil => simp
  | cons o os ih =>
    cases ns with
    | nil => simp
    | cons n ns =>
      cases o with
      | eintr => exact @ih (n :: ns) h
      | err => rfl
      | ret k =>
        simp only [List.cons_append, answersZero] at h ⊢
        by_cases hk : k = 0
        · simp [hk] at h
        · rw [if_neg hk] at h ⊢
          by_cases hshort : k < n
          · rw [if_pos hshort] at h ⊢
            exact @ih ((n - k) :: ns) h
          · rw [if_neg hshort] at h ⊢
            exact ih h

/-- A chunk is sent whole, or `write` fails, or it answers 0. -/
theorem sendAllLoop_answersZero {ws : List WriteOutcome} {total : Nat} {buf : List Byte} (hbuf : buf ≠ []) (ns : List Nat) :
    let r := sendAllLoop total buf ws
    (r.rc = some (total + buf.length) ∧ answersZero (buf.length :: ns) ws = answersZero ns r.rest) ∨
      (r.rc = none ∧ answersZero (buf.length :: ns) ws = false) ∨
      ∃ m, r.rc = some m ∧ m < total + buf.length ∧ answersZero (buf.length :: ns) ws = true := by
  induction ws generalizing total buf with
  | nil => exact .inl ⟨rfl, by simp [answersZero, sendAllLoop]⟩
  | cons o os ih =>
    have hpos : 0 < buf.length := List.length_pos_iff.2 hbuf
    unfold sendAllLoop
    rw [if_neg (by simpa using hbuf)]
    cases o with
    | eintr => exact @ih total buf hbuf
    | err => exact .inr (.inl ⟨rfl, rfl⟩)
    | ret k =>
      simp only [answersZero]
      by_cases hk : k = 0
      · subst hk
        exact .inr (.inr ⟨total, by simp, by omega, rfl⟩)
      · rw [if_neg (by omega), if_neg hk]
        by_cases hshort : k < buf.length
        · have hlen : (buf.drop k).length = buf.length - k := List.length_drop
          have hdrop : buf.drop k ≠ [] := List.ne_nil_of_length_pos (by omega)
          have hrest := @ih (total + k) (buf.drop k) hdrop
          have hsum : total + k + (buf.length - k) = total + buf.length := by omega
          rw [hlen, hsum] at hrest
          rw [if_pos hshort, Nat.min_eq_left (by omega)]
          exact hrest
        · rw [if_neg hshort, Nat.min_eq_right (by omega), List.drop_length]
          refine .inl ?_
          cases os <;> simp [sendAllLoop]

theorem sendAll_answersZero (chunk : Chunk relayChunkSize) (rest : List (RecvOutcome relayChunkSize)) (ws : List WriteOutcome) :
    let sent := sendAll chunk.bytes ws
    let zero := answersZero (chunkLengths (.data chunk :: rest)) ws
    (sent.rc = some chunk.bytes.length ∧ zero = answersZero (chunkLengths rest) sent.rest) ∨
      (sent.rc = none ∧ zero = false) ∨
      (sent.rc ≠ none ∧ (acceptedBytes sent.calls).length < chunk.bytes.length ∧ zero = true) := by
  have hsent := @sendAllLoop_answersZero ws 0 chunk.bytes chunk.nonempty (chunkLengths rest)
  have hcount := (@sendAllLoop_accepted ws 0 chunk.bytes).2
  simp only [Nat.zero_add] at hsent hcount
  rcases hsent with hwhole | hfailed | ⟨m, hrc, hshort, htrue⟩
  · exact .inl hwhole
  · exact .inr (.inl hfailed)
  · exact .inr (.inr ⟨by simp [sendAll, hrc], hcount m hrc ▸ hshort, htrue⟩)

/-- Between two chunks, where nothing was left out: what has been accepted and
counted is what has been received. -/
structure InOrder (st : RelayState) : Prop where
  sent : acceptedBytes st.calls = st.received
  counted : st.stats.bytesRelayed = st.received.length

theorem InOrder.start (writes : List WriteOutcome) : InOrder { writes } := ⟨rfl, rfl⟩

section

variable {limit : Nat} {realloc : Nat → Bool} {st : RelayState}

theorem afterSend_accepted (st : RelayState) (chunk : List Byte) :
    acceptedBytes (st.afterSend chunk).calls = acceptedBytes st.calls ++ acceptedBytes (sendAll chunk st.writes).calls :=
  List.flatMap_append

theorem afterSend_bytesRelayed (st : RelayState) (chunk : List Byte) :
    (st.afterSend chunk).stats.bytesRelayed = st.stats.bytesRelayed := by
  unfold RelayState.afterSend RelayState.noteStatus
  split <;> rfl

theorem relayed_counts (limit : Nat) (realloc : Nat → Bool) (st : RelayState) (chunk : List Byte) :
    ((st.afterSend chunk).relayed limit realloc chunk).stats.bytesRelayed = st.stats.bytesRelayed + chunk.length := by
  obtain ⟨s, heq, hbytes, -⟩ := relayed_stats limit realloc st chunk
  rw [heq]
  exact (captureChunk_bytesRelayed ..).trans hbytes

theorem InOrder.ended (h : InOrder st) :
    acceptedBytes st.calls <+: st.received ++ [] ∧ st.stats.bytesRelayed ≤ (acceptedBytes st.calls).length := by
  rw [h.sent, List.append_nil]
  exact ⟨List.prefix_rfl, h.counted.le⟩

/-- A chunk that was sent whole. -/
theorem InOrder.step (h : InOrder st) {chunk : List Byte} (hrc : (sendAll chunk st.writes).rc = some chunk.length) :
    InOrder ((st.afterSend chunk).relayed limit realloc chunk) := by
  refine ⟨?_, ?_⟩
  · show acceptedBytes (st.afterSend chunk).calls = st.received ++ chunk
    rw [afterSend_accepted, h.sent, (sendAll_accepted chunk st.writes).2 hrc]
  · rw [relayed_counts, h.counted, ← List.length_append]
    rfl

/-- Where `write` never answers 0, the client gets the beginning of the stream,
and at least what is counted. -/
theorem relayLoop_in_order {chunks : List (RecvOutcome relayChunkSize)} (h : InOrder st)
    (hzero : answersZero (chunkLengths chunks) st.writes = false) :
    acceptedBytes (relayLoop limit realloc chunks st).2.calls <+: st.received ++ (originStream chunks).1 ∧
      (relayLoop limit realloc chunks st).2.stats.bytesRelayed ≤
        (acceptedBytes (relayLoop limit realloc chunks st).2.calls).length := by
  induction chunks generalizing st with
  | nil => exact h.ended
  | cons o os ih =>
    cases o with
    | data chunk =>
      rw [relayLoop_data, originStream, ← List.append_assoc]
      rcases sendAll_answersZero chunk os st.writes with ⟨hrc, hsame⟩ | ⟨hrc, -⟩ | ⟨-, -, htrue⟩
      · rw [if_neg (by simp [hrc])]
        exact ih (h.step hrc) (hsame ▸ hzero)
      · -- what `send_all` got through before it failed is on top of what is counted
        rw [if_pos hrc]
        dsimp only
        rw [afterSend_accepted, afterSend_bytesRelayed, h.sent, h.counted, List.length_append]
        have hsent := (sendAll_accepted chunk.bytes st.writes).1
        exact ⟨((List.prefix_append_right_inj _).2 hsent).trans (List.prefix_append ..), Nat.le_add_right ..⟩
      · exact absurd (htrue.symm.trans hzero) (by decide)
    | eof => exact h.ended
    | eagain => exact h.ended
    | eintr => exact h.ended
    | err => exact h.ended

/-- Where `write` answers 0, more is counted than was accepted after that chunk. -/
theorem relayLoop_miscounts {chunks : List (RecvOutcome relayChunkSize)} (h : InOrder st)
    (hzero : answersZero (chunkLengths chunks) st.writes = true) :
    ∃ n, (acceptedBytes (relayLoop limit realloc (chunks.take n) st).2.calls).length <
      (relayLoop limit realloc (chunks.take n) st).2.stats.bytesRelayed := by
  induction chunks generalizing st with
  | nil => exact absurd hzero (by simp [chunkLengths])
  | cons o os ih =>
    cases o with
    | data chunk =>
      rcases sendAll_answersZero chunk os st.writes with ⟨hrc, hsame⟩ | ⟨-, hfalse⟩ | ⟨hrc, hshort, -⟩
      · obtain ⟨n, hn⟩ := ih (h.step hrc) (hsame ▸ hzero)
        refine ⟨n + 1, ?_⟩
        rw [List.take_succ_cons, relayLoop_data, if_neg (by simp [hrc])]
        exact hn
      · exact absurd (hfalse.symm.trans hzero) (by decide)
      · refine ⟨1, ?_⟩
        rw [List.take_succ_cons, List.take_zero, relayLoop_data, if_neg hrc]
        show (acceptedBytes (st.afterSend chunk.bytes).calls).length < _
        rw [afterSend_accepted, h.sent, List.length_append]
        show _ < ((st.afterSend chunk.bytes).relayed limit realloc chunk.bytes).stats.bytesRelayed
        rw [relayed_counts, h.counted]
        omega
    | eof => exact absurd hzero (by simp [chunkLengths])
    | eagain => exact absurd hzero (by simp [chunkLengths])
    | eintr => exact absurd hzero (by simp [chunkLengths])
    | err => exact absurd hzero (by simp [chunkLengths])

end

theorem chunkLengths_take {cap : Nat} (chunks : List (RecvOutcome cap)) (n : Nat) :
    chunkLengths (chunks.take n) <+: chunkLengths chunks := by
  induction chunks generalizing n with
  | nil => simp
  | cons o os ih =>
    cases n with
    | zero => exact List.nil_prefix
    | succ n =>
      rw [List.take_succ_cons]
      cases o with
      | data chunk => exact (List.cons_prefix_cons ..).2 ⟨rfl, ih n⟩
      | eof => exact List.nil_prefix
      | eagain => exact List.nil_prefix
      | eintr => exact List.nil_prefix
      | err => exact List.nil_prefix

/-- **The client has the beginning of the origin's stream, and no more is ever
counted than it has, exactly where `write` never answers 0** to a call of the
relay. -/
theorem fetchAndRelay_client_prefix (allowPrivate : Bool) (env : FetchEnv) (url : ParsedUrl) (limit : Nat) :
    let r := fetchAndRelay allowPrivate env url limit
    (acceptedBytes r.toClient <+: (originStream env.chunks).1 ∧
      r.stats.bytesRelayed ≤ (acceptedBytes r.toClient).length ∧
      (env.Relays allowPrivate url → ∀ n,
        (env.relayState limit n).stats.bytesRelayed ≤ (acceptedBytes (env.relayState limit n).calls).length)) ↔
    (env.Relays allowPrivate url → answersZero (chunkLengths env.chunks) env.clientWrites = false) := by
  by_cases hrelays : env.Relays allowPrivate url
  · obtain ⟨-, hstats, hclient⟩ := fetchAndRelay_relays hrelays limit rfl
    have hcount : (fetchAndRelay allowPrivate env url limit).stats.bytesRelayed =
        (relayLoop limit env.realloc env.chunks { writes := env.clientWrites }).2.stats.bytesRelayed := by
      rw [hstats]
      exact settle_bytesRelayed ..
    dsimp only
    rw [hclient, hcount]
    simp only [hrelays, true_implies]
    refine ⟨fun h => ?_, fun hzero => ?_⟩
    · by_contra htrue
      obtain ⟨n, hn⟩ := relayLoop_miscounts (.start env.clientWrites) (by simpa using htrue)
      exact absurd (h.2.2 n) (Nat.not_le.2 hn)
    · obtain ⟨hfirst, hle⟩ := relayLoop_in_order (.start env.clientWrites) hzero
      refine ⟨hfirst, hle, fun n => (relayLoop_in_order (.start env.clientWrites) ?_).2⟩
      obtain ⟨more, hmore⟩ := chunkLengths_take env.chunks n
      exact answersZero_append (hmore ▸ hzero)
  · obtain ⟨-, hstats, hclient⟩ := fetchAndRelay_no_relay hrelays limit
    dsimp only
    rw [hstats, hclient]
    exact iff_of_true ⟨List.nil_prefix, Nat.zero_le _, fun h => absurd h hrelays⟩ fun h => absurd h hrelays

/-- The client takes five bytes, then `write` answers 0: the rest of the chunk is
left out, the next one follows, and 23 bytes are counted where 9 were taken. -/
theorem fetchAndRelay_client_gap :
    let env := { shortAnswer with
      chunks := [.data ⟨bytes "HTTP/1.0 200 OK\r\n\r\n", by decide, by decide⟩, .data ⟨bytes "body", by decide, by decide⟩, .eof]
      clientWrites := [.ret 5, .ret 0] }
    let r := fetchAndRelay false env ⟨bytes "a.com", 80, bytes "/"⟩ 100
    acceptedBytes r.toClient = bytes "HTTP/body" ∧ r.stats.bytesRelayed = 23 ∧ r.status = .ok ∧
      ¬ acceptedBytes r.toClient <+: (originStream env.chunks).1 := by
  decide +kernel

end SecureProxy
