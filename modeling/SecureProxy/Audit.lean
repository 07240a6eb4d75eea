/-
The record of a request against the run it is about.

`cleanup` writes whatever the paths before it left in its variables. Here the
same record is read off the run: the decision, status and byte count from what
the client was sent (`Told`), the tokens from what the worker learned on the
way (`Noted`). `Audited` holds the two together, function by function.
-/
import SecureProxy.AcceptLoopFacts
import SecureProxy.FetchStream
import SecureProxy.LoggerLine
import SecureProxy.Responses
import SecureProxy.TunnelFacts

namespace SecureProxy

open Bytes Progs

/-! ## What the record should say -/

/-- The word for an error response. -/
def errorWord : Nat → Option String
  | 400 => some "bad_request"
  | 408 => some "timeout"
  | 413 => some "too_large"
  | 502 => some "bad_gateway"
  | 504 => some "gateway_timeout"
  | _ => none

def obsTunnel : Obs Query.Answer ClientEvent → Option TunnelEvent
  | .said (.tunnel e) => some e
  | _ => none

def tunnelEvents (t : Trace) : List TunnelEvent := t.filterMap obsTunnel

@[simp] theorem tunnelEvents_append (t t' : Trace) : tunnelEvents (t ++ t') = tunnelEvents t ++ tunnelEvents t' :=
  List.filterMap_append

/-- What a run has to be for its record to say this decision, this status and
this number of bytes. -/
inductive Told (requestId : UInt64) (t : Trace) : String → Nat → Nat → Prop
  | closed : outputs t = [] → Told requestId t "client_closed" 0 0
  | error {status : Nat} {word : String} {text : List Byte} {calls : List WriteCall} : errorWord status = some word →
      outputs t = [.response (.error status text) calls] → Told requestId t word status 0
  | blocked {reason : DecisionReason} {calls : List WriteCall} : reason ≠ .none →
      outputs t = [.response (blockPage requestId reason) calls] → Told requestId t (blockedLabel reason) 403 0
  /-- The client left before it had heard of the tunnel. -/
  | cutOff {calls : List WriteCall} : outputs t = [.response .established calls] →
      (acceptedBytes calls).length < establishedText.length → Told requestId t "client_closed" 0 0
  | tunnelled {calls : List WriteCall} :
      outputs t = .response .established calls :: (callsTo .client (tunnelEvents t)).map .tunnelled →
      acceptedBytes calls = establishedText → Told requestId t "allowed" 200 (deliveredTotal (tunnelEvents t))
  /-- The length of the copy is counted, also where the client took less of it. -/
  | cached {key data : List Byte} {calls : List WriteCall} : .asked (.cacheLookup key) (some data) ∈ t →
      outputs t = calls.map (.relayed .cached) → acceptedBytes calls <+: data → Told requestId t "allowed" 200 data.length
  | relayed {url : ParsedUrl} {received : List Byte} {calls : List WriteCall} {status : Nat} :
      .said (.fetched url .ok received) ∈ t → outputs t = calls.map (.relayed .origin) →
      acceptedBytes calls = received → status = 0 ∨ status = parseOriginStatus received →
      Told requestId t "allowed" status received.length
  | broken {url : ParsedUrl} {s : FetchStatus} {received : List Byte} {calls : List WriteCall} {status n : Nat} :
      .said (.fetched url s received) ∈ t → s ≠ .ok → outputs t = calls.map (.relayed .origin) →
      acceptedBytes calls <+: received → n ≤ (acceptedBytes calls).length → (s ≠ .errSend → n = received.length) →
      status = 0 ∨ status = parseOriginStatus received → Told requestId t "relay_error" status n

section

variable {requestId : UInt64} {t t' : Trace} {decision : String} {status n : Nat}

/-- It is what was sent that counts, not when. -/
theorem Told.within (h : Told requestId t decision status n) (hout : outputs t' = outputs t)
    (htun : tunnelEvents t' = tunnelEvents t) (hsub : t ⊆ t') : Told requestId t' decision status n := by
  cases h with
  | closed ho => exact .closed (hout.trans ho)
  | error hw ho => exact .error hw (hout.trans ho)
  | blocked hr ho => exact .blocked hr (hout.trans ho)
  | cutOff ho hlt => exact .cutOff (hout.trans ho) hlt
  | tunnelled ho hacc =>
    rw [← htun] at ho ⊢
    exact .tunnelled (hout.trans ho) hacc
  | cached hm ho hacc => exact .cached (hsub hm) (hout.trans ho) hacc
  | relayed hm ho hacc hs => exact .relayed (hsub hm) (hout.trans ho) hacc hs
  | broken hm hne ho hacc hn hall hs => exact .broken (hsub hm) hne (hout.trans ho) hacc hn hall hs

theorem Told.after {t₀ : Trace} (h : Told requestId t decision status n) (hout : outputs t₀ = [])
    (htun : tunnelEvents t₀ = []) : Told requestId (t₀ ++ t) decision status n :=
  h.within (by rw [outputs_append, hout, List.nil_append]) (by rw [tunnelEvents_append, htun, List.nil_append])
    (List.subset_append_right ..)

end

/-! ## What a worker learns -/

/-- Tokens one after another. -/
def spaced (tokens : List (List Byte)) : List Byte := [ch ' '].intercalate tokens

structure Noted where
  tokens : List (List Byte) := []
  sig : DecisionInputs := {}
  cacheState : Option String := none

/-- The tokens for a reputation result. -/
def reputationTokens (r : ReputationResult) : List (List Byte) :=
  (bytes "rep=" ++ bytes (reputationVerdictName r.verdict)) ::
    if r.verdict = .unavailable then [bytes "rep_reason=" ++ bytes (reputationReasonName r.reason)] else []

def Noted.see (n : Noted) : Obs Query.Answer ClientEvent → Noted
  | .asked (.policyCheckHost _) p =>
    if p ≠ PolicyDecision.allow then { n with sig := { n.sig with policyDenied := true } } else n
  | .asked (.reputationCheck _) r =>
    { n with tokens := n.tokens ++ reputationTokens r
             sig := { n.sig with reputationChecked := true, reputation := r.verdict } }
  | .asked .cacheIsEnabled on => if on then { n with cacheState := some "cache=bypass" } else n
  | .asked (.cacheLookup _) hit => { n with cacheState := some (if hit.isSome then "cache=hit" else "cache=miss") }
  | .asked (.cacheStore ..) stored => if stored then { n with cacheState := some "cache=stored" } else n
  | .said (.respond (.blockPage .network _) _) => { n with sig := { n.sig with networkUnsafe := true } }
  | .said (.respond (.blockPage .port _) _) => { n with sig := { n.sig with portDenied := true } }
  | _ => n

/-- Everything noted in a run. -/
def Noted.after (n : Noted) (t : Trace) : Noted := t.foldl Noted.see n

@[simp] theorem Noted.after_nil (n : Noted) : n.after [] = n := rfl

@[simp] theorem Noted.after_cons (n : Noted) (e : Obs Query.Answer ClientEvent) (t : Trace) :
    n.after (e :: t) = (n.see e).after t := rfl

@[simp] theorem Noted.after_append (n : Noted) (t t' : Trace) : n.after (t ++ t') = (n.after t).after t' :=
  List.foldl_append

/-- Nothing is noted about what the origin's socket or a tunnel does. -/
theorem Noted.after_unnoted {es : List ClientEvent} (h : ∀ e ∈ es, ∀ r calls, e ≠ .respond r calls) (n : Noted) :
    n.after (es.map .said) = n := by
  induction es with
  | nil => rfl
  | cons e es ih =>
    have he : n.see (.said e) = n := by
      cases e with
      | respond r calls => exact absurd rfl (h _ (by simp) r calls)
      | _ => rfl
    rw [List.map_cons, Noted.after_cons, he]
    exact ih fun e' he' => h e' (by simp [he'])

/-- A token as the logger keeps it: its own bytes, no space among them. -/
def isTokenByte (b : Byte) : Bool := cleanExtrasByte b == b && b != ch ' '

/-- The variables `cleanup` reads hold what was noted, with room for what it
adds. -/
structure Agrees (n : Noted) (o : Outcome) : Prop where
  sig : o.sig = n.sig
  cacheState : o.cacheState = n.cacheState
  extras : o.extras = spaced n.tokens
  tokens : ∀ token ∈ n.tokens, token ≠ [] ∧ token.all isTokenByte = true
  room : (spaced n.tokens).length ≤ 51
  state : ∀ state ∈ n.cacheState, state ∈ ["cache=bypass", "cache=hit", "cache=miss", "cache=stored"]

theorem Agrees.same {n : Noted} {o o' : Outcome} (h : Agrees n o) (hsig : o'.sig = o.sig)
    (hcache : o'.cacheState = o.cacheState) (hextras : o'.extras = o.extras) : Agrees n o' :=
  ⟨hsig.trans h.sig, hcache.trans h.cacheState, hextras.trans h.extras, h.tokens, h.room, h.state⟩

/-! ## `extras_add` never drops a token -/

theorem spaced_append {tokens more : List (List Byte)} (hne : tokens ≠ []) (hmore : more ≠ []) :
    spaced (tokens ++ more) = spaced tokens ++ ch ' ' :: spaced more := by
  induction tokens with
  | nil => exact absurd rfl hne
  | cons first tokens ih =>
    cases tokens with
    | nil =>
      obtain ⟨second, more, rfl⟩ := List.exists_cons_of_ne_nil hmore
      simp [spaced, List.intercalate_cons_cons]
    | cons second tokens =>
      have hrest := ih (by simp)
      simp only [spaced, List.cons_append, List.intercalate_cons_cons] at hrest ⊢
      rw [hrest]
      simp

theorem spaced_snoc {tokens : List (List Byte)} (hne : tokens ≠ []) (token : List Byte) :
    spaced (tokens ++ [token]) = spaced tokens ++ ch ' ' :: token := by
  rw [spaced_append hne (by simp)]
  simp [spaced, List.intercalate]

theorem length_spaced_snoc_le (tokens : List (List Byte)) (token : List Byte) :
    (spaced (tokens ++ [token])).length ≤ (spaced tokens).length + token.length + 1 := by
  by_cases hne : tokens = []
  · subst hne
    simp [spaced, List.intercalate]
  · rw [spaced_snoc hne]
    simp
    omega

theorem spaced_isEmpty {tokens : List (List Byte)} (h : ∀ token ∈ tokens, token ≠ []) :
    (spaced tokens).isEmpty = tokens.isEmpty := by
  cases tokens with
  | nil => rfl
  | cons first rest =>
    have hfirst := h first (by simp)
    cases rest with
    | nil => simp [spaced, List.intercalate, hfirst]
    | cons second rest => simp [spaced, List.intercalate_cons_cons, hfirst]

theorem extrasAdd_spaced {tokens : List (List Byte)} (htokens : ∀ token ∈ tokens, token ≠ []) {token : List Byte}
    (hroom : (spaced tokens).length + token.length + 2 ≤ 96) :
    extrasAdd (spaced tokens) token = spaced (tokens ++ [token]) := by
  unfold extrasAdd
  rw [spaced_isEmpty htokens]
  cases tokens with
  | nil =>
    have hnil : spaced [] = [] := rfl
    rw [hnil] at hroom ⊢
    simp only [List.isEmpty_nil, if_true, List.length_nil] at hroom ⊢
    rw [if_neg (by omega)]
    simp [spaced, List.intercalate]
  | cons first rest =>
    simp only [List.isEmpty_cons, Bool.false_eq_true, if_false]
    rw [if_neg (by omega), spaced_snoc (by simp)]

/-! ## The relay -/

/-- Nothing is lost on the client's side: a write that takes nothing has failed. -/
structure ClientEnv.Progress (env : ClientEnv) : Prop where
  writes : ∀ w ∈ env.writes, w ≠ .ret 0
  fetch : ∀ w ∈ env.fetch.clientWrites, w ≠ .ret 0
  tunnel : ∀ w ∈ env.tunnelOriginWrites, w ≠ .ret 0

/-- What holds between two chunks of a relay. -/
structure Relaying (st : RelayState) : Prop where
  order : InOrder st
  writes : ∀ w ∈ st.writes, w ≠ .ret 0
  fresh : st.firstChunk = true → st.received = []
  status : st.stats.originStatus = 0 ∨ st.stats.originStatus = parseOriginStatus st.received

/-- A status once read stays the status of the stream. -/
theorem parseOriginStatus_grows {status : Nat} {received : List Byte} (h : status = 0 ∨ status = parseOriginStatus received)
    (chunk : List Byte) : status = 0 ∨ status = parseOriginStatus (received ++ chunk) := by
  rcases h with h | h
  · exact .inl h
  · by_cases hlen : 12 ≤ received.length
    · exact .inr (h.trans (parseOriginStatus_append hlen chunk).symm)
    · exact .inl (h.trans (parseOriginStatus_short (by omega)))

theorem Relaying.noted {st : RelayState} (h : Relaying st) (chunk : List Byte) :
    (st.noteStatus chunk).stats.originStatus = 0 ∨
      (st.noteStatus chunk).stats.originStatus = parseOriginStatus (st.received ++ chunk) := by
  unfold RelayState.noteStatus
  split
  · rename_i hfirst
    rw [h.fresh hfirst]
    exact .inr rfl
  · exact parseOriginStatus_grows h.status chunk

theorem Relaying.step {limit : Nat} {realloc : Nat → Bool} {st : RelayState} (h : Relaying st)
    {chunk : List Byte} (hrc : (sendAll chunk st.writes).rc ≠ none) :
    Relaying ((st.afterSend chunk).relayed limit realloc chunk) := by
  obtain ⟨-, hall, hrest⟩ := @sendAllLoop_steady st.writes 0 chunk h.writes
  have hacc : acceptedBytes (sendAll chunk st.writes).calls = chunk := hall hrc
  have hwhole : (sendAll chunk st.writes).rc = some chunk.length := by
    obtain ⟨n, hn⟩ := Option.ne_none_iff_exists'.1 hrc
    have hcount := (@sendAllLoop_accepted st.writes 0 chunk).2 n hn
    rw [Nat.zero_add] at hcount
    rw [hn, hcount]
    exact congrArg (fun l => some (List.length l)) hacc
  obtain ⟨hfirst, hstatus⟩ := relayed_originStatus limit realloc st chunk
  refine ⟨h.order.step hwhole, hrest, fun hf => ?_, ?_⟩
  · rw [hfirst] at hf
    cases hf
  · have hnoted := h.noted chunk
    have hsame : ((st.afterSend chunk).relayed limit realloc chunk).stats.originStatus =
        (st.noteStatus chunk).stats.originStatus := by
      rw [hstatus]
      unfold RelayState.noteStatus
      split <;> rfl
    rw [hsame]
    exact hnoted

/-- Where the relay stops: between two chunks, or in the one the client did
not take. -/
theorem Relaying.ends {limit : Nat} {realloc : Nat → Bool} (chunks : List (RecvOutcome relayChunkSize))
    {st : RelayState} (h : Relaying st) : RelayEnds Relaying (relayLoop limit realloc chunks st) := by
  induction chunks generalizing st with
  | nil => exact .between (by simp) h
  | cons o os ih =>
    cases o with
    | data chunk =>
      rw [relayLoop_data]
      by_cases hrc : (sendAll chunk.bytes st.writes).rc = none
      · rw [if_pos hrc]
        exact .lost hrc h
      · rw [if_neg hrc]
        exact ih (h.step hrc)
    | eof => exact .between (by simp) h
    | eagain => exact .between (by simp) h
    | eintr => exact .between (by simp) h
    | err => exact .between (by simp) h

/-- What the numbers of a fetch say about its bytes. -/
structure FetchTold (r : FetchResult) : Prop where
  taken : acceptedBytes r.toClient <+: r.received
  counted : r.stats.bytesRelayed ≤ (acceptedBytes r.toClient).length
  whole : r.status ≠ .errSend → acceptedBytes r.toClient = r.received ∧ r.stats.bytesRelayed = r.received.length
  status : r.stats.originStatus = 0 ∨ r.stats.originStatus = parseOriginStatus r.received

theorem settle_originStatus (s : FetchStats) (status : FetchStatus) : (s.settle status).originStatus = s.originStatus := by
  unfold FetchStats.settle
  split <;> rfl

theorem fetchAndRelay_received {allowPrivate : Bool} {env : FetchEnv} {url : ParsedUrl} (h : ¬ env.Relays allowPrivate url)
    (limit : Nat) : (fetchAndRelay allowPrivate env url limit).received = [] := by
  unfold FetchEnv.Relays at h
  unfold fetchAndRelay
  dsimp only
  split
  · rename_i fd hstatus hfd
    split
    · rfl
    · rename_i hrc
      exact absurd ⟨hstatus, by rw [hrc]; simp⟩ h
  · rfl

theorem fetchAndRelay_told {allowPrivate : Bool} {env : FetchEnv} (hret : ∀ w ∈ env.clientWrites, w ≠ .ret 0)
    (url : ParsedUrl) (limit : Nat) : FetchTold (fetchAndRelay allowPrivate env url limit) := by
  by_cases hrelays : env.Relays allowPrivate url
  · have hcase := fetchAndRelay_case allowPrivate env url limit
    generalize fetchAndRelay allowPrivate env url limit = r at hcase ⊢
    cases hcase with
    | connect hne => exact absurd hrelays.1 hne
    | request hok hrc => exact absurd hrc hrelays.2
    | relay ended st hok hrc hloop hstatus hstats hclient hreceived =>
      have hstart : Relaying { writes := env.clientWrites } := ⟨.start _, hret, fun _ => rfl, .inl rfl⟩
      have hends := @Relaying.ends limit env.realloc env.chunks _ hstart
      rw [hloop] at hends
      have hbytes : r.stats.bytesRelayed = st.stats.bytesRelayed := by rw [hstats, settle_bytesRelayed]
      have horigin : r.stats.originStatus = st.stats.originStatus := by rw [hstats, settle_originStatus]
      cases hends with
      | between hend hst =>
        refine ⟨?_, ?_, fun _ => ?_, ?_⟩
        · rw [hclient, hreceived, hst.order.sent]
        · rw [hclient, hbytes, hst.order.sent, hst.order.counted]
        · rw [hclient, hreceived, hbytes]
          exact ⟨hst.order.sent, hst.order.counted⟩
        · rw [horigin, hreceived]
          exact hst.status
      | @lost st₀ chunk hlost hst =>
        have hsent := (sendAll_accepted chunk.bytes st₀.writes).1
        refine ⟨?_, ?_, fun hne => absurd hstatus hne, ?_⟩
        · rw [hclient, hreceived, afterSend_accepted, hst.order.sent]
          exact (List.prefix_append_right_inj _).2 hsent
        · rw [hclient, hbytes, afterSend_accepted, afterSend_bytesRelayed, hst.order.sent, hst.order.counted,
            List.length_append]
          exact Nat.le_add_right ..
        · rw [horigin, hreceived]
          exact hst.noted chunk.bytes
  · obtain ⟨-, hstats, hclient⟩ := fetchAndRelay_no_relay hrelays limit
    refine ⟨?_, ?_, fun _ => ?_, ?_⟩
    · rw [hclient]
      exact List.nil_prefix
    · rw [hstats]
      exact Nat.zero_le _
    · rw [hclient, hstats, fetchAndRelay_received hrelays]
      exact ⟨rfl, rfl⟩
    · rw [hstats]
      exact .inl rfl

theorem fetchAndRelay_quiet_bytes {allowPrivate : Bool} {env : FetchEnv} {url : ParsedUrl} {limit : Nat}
    (h : (fetchAndRelay allowPrivate env url limit).Quiet) :
    (fetchAndRelay allowPrivate env url limit).stats.bytesRelayed = 0 := by
  by_cases hrelays : env.Relays allowPrivate url
  · have hstatus := (fetchAndRelay_relays hrelays limit rfl).1
    unfold FetchResult.Quiet at h
    have hne := relayStatus_ne
      (relayLoop limit env.realloc env.chunks { writes := env.clientWrites }).2.stats.bytesRelayed
      (relayLoop limit env.realloc env.chunks { writes := env.clientWrites }).1
    rw [← hstatus] at hne
    rcases h with h | h | h | h
    · exact absurd h hne.1
    · exact absurd h hne.2.1
    · exact absurd h hne.2.2
    · exact h.2
  · rw [(fetchAndRelay_no_relay hrelays limit).2.1]

end SecureProxy
