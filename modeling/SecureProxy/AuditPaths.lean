/-
Path by path through `handle_client`: what `cleanup` finds in its variables can
be read off the run that leads there.
-/
import SecureProxy.Audit

namespace SecureProxy

open Bytes Progs

/-- The variables of `cleanup` can be read off the run: `n` is what had been
noted before it. -/
structure Audited (requestId : UInt64) (n : Noted) (host : List Byte) (risk : Bool) (t : Trace) (o : Outcome) : Prop where
  told : Told requestId t o.decision o.status o.byteCount
  agrees : Agrees (n.after t) o
  host : o.host = host
  risk : o.riskKnown = risk

section

variable {ok : (q : Query) → q.Answer → Prop} {g : Globals} {env : ClientEnv} {requestId : UInt64} {n : Noted}
  {t : Trace} {o o' : Outcome}

theorem Audited.after {t₀ : Trace} {host : List Byte} {risk : Bool} (h : Audited requestId (n.after t₀) host risk t o)
    (hout : outputs t₀ = []) (htun : tunnelEvents t₀ = []) : Audited requestId n host risk (t₀ ++ t) o :=
  ⟨h.told.after hout htun, by rw [Noted.after_append]; exact h.agrees, h.host, h.risk⟩

theorem audited_error {status : Nat} {text word : String} {body : List Byte} (hword : errorWord status = some word)
    (hbytes : o.byteCount = 0) (hfol : Agrees n o) :
    Ensures ok (do sendErrorResponse env status text body; return o.withStatus word status) (Audited requestId n o.host o.riskKnown) := by
  refine ensures_tell (ensures_pure ⟨?_, ?_, rfl, rfl⟩)
  · show Told requestId _ word status o.byteCount
    rw [hbytes]
    exact .error hword rfl
  · exact hfol.same rfl rfl rfl

theorem audited_block {reason : DecisionReason} (hreason : reason ≠ .none) (hbytes : o.byteCount = 0)
    (hfol : Agrees (n.see (.said (blockEvent env requestId reason))) o) :
    Ensures ok (block env requestId reason o) (Audited requestId n o.host o.riskKnown) := by
  unfold block
  rw [sendBlockPage_eq]
  refine ensures_tell (ensures_pure ⟨?_, ?_, rfl, rfl⟩)
  · show Told requestId _ (blockedLabel reason) 403 o.byteCount
    rw [hbytes]
    exact .blocked hreason rfl
  · exact hfol.same rfl rfl rfl

/-- Where nothing else blocks, an unsafe network does. -/
theorem decisionEvaluate_network {sig : DecisionInputs} (h : (decisionEvaluate sig).action = .allow) :
    (decisionEvaluate { sig with networkUnsafe := true }).reason = .network := by
  rcases sig with ⟨p, u, d, c, v⟩
  revert h
  cases p <;> cases u <;> cases d <;> cases c <;> cases v <;> decide

theorem audited_blockNetwork (hallow : (decisionEvaluate o.sig).action = .allow) (hbytes : o.byteCount = 0)
    (hfol : Agrees n o) : Ensures ok (blockNetwork env requestId o) (Audited requestId n o.host o.riskKnown) := by
  unfold blockNetwork
  dsimp only
  rw [decisionEvaluate_network hallow]
  have hnoted : Agrees (n.see (.said (blockEvent env requestId .network)))
      { o with sig := { o.sig with networkUnsafe := true } } :=
    ⟨congrArg (fun sig => { sig with networkUnsafe := true }) hfol.sig, hfol.cacheState, hfol.extras, hfol.tokens,
      hfol.room, hfol.state⟩
  exact audited_block (by decide) hbytes hnoted

theorem audited_badGateway {status : FetchStatus} (hbytes : o.byteCount = 0) (hfol : Agrees n o) :
    Ensures ok (badGateway env status o) (Audited requestId n o.host o.riskKnown) :=
  audited_error rfl hbytes hfol

/-! ### CONNECT -/

theorem tunnelEvents_tunnel (es : List TunnelEvent) (fd : Option Fd) :
    tunnelEvents ((es.map ClientEvent.tunnel ++ fd.toList.map fun fd => ClientEvent.conn (.close fd)).map .said) = es ∧
      outputs ((es.map ClientEvent.tunnel ++ fd.toList.map fun fd => ClientEvent.conn (.close fd)).map .said) =
        (callsTo .client es).map .tunnelled := by
  induction es with
  | nil => cases fd <;> exact ⟨rfl, rfl⟩
  | cons e es ih =>
    obtain ⟨htun, hout⟩ := ih
    refine ⟨congrArg (e :: ·) htun, ?_⟩
    rw [List.map_cons, List.cons_append, List.map_cons, outputs_said, hout]
    cases e with
    | received src chunk => rfl
    | shutdownWrite dst => rfl
    | written dst call => cases dst <;> rfl

/-- The state a tunnel starts in. -/
theorem Steady.start (idleSeconds : Nat) {clientWrites originWrites : List WriteOutcome}
    (hclient : ∀ w ∈ clientWrites, w ≠ .ret 0) (horigin : ∀ w ∈ originWrites, w ≠ .ret 0) :
    Steady { timeoutMs := idleSeconds * 1000, clientWrites, originWrites } := by
  refine ⟨fun _ => rfl, .nil, by simp, rfl, fun side => ?_⟩
  cases side with
  | client => exact hclient
  | origin => exact horigin

theorem audited_openTunnel (henv : env.Progress) (fd : Option Fd) (hbytes : o.byteCount = 0) (hfol : Agrees n o) :
    Ensures ok (openTunnel g env fd o) (Audited requestId n o.host o.riskKnown) := by
  obtain ⟨hfail, hall, hrest⟩ := @sendAllLoop_steady env.writes 0 establishedText henv.writes
  unfold openTunnel
  refine ensures_tell ?_
  split
  · rename_i hrc
    obtain ⟨htun, hout⟩ := tunnelEvents_tunnel [] fd
    refine ensures_tells (ensures_pure ⟨?_, ?_, rfl, rfl⟩)
    · show Told requestId _ "client_closed" 0 o.byteCount
      rw [hbytes, List.append_nil]
      refine .cutOff ?_ (hfail hrc)
      rw [outputs_said]
      exact congrArg (_ :: ·) hout
    · rw [List.append_nil, Noted.after_cons]
      show Agrees (n.after _) _
      rw [Noted.after_unnoted (by cases fd <;> simp)]
      exact hfol.same rfl rfl rfl
  · rename_i hrc
    have htotal := (tunnelLoop_delivered env.tunnel (Steady.start g.tunnelIdleSeconds hrest henv.tunnel)).total
    obtain ⟨htun, hout⟩ := tunnelEvents_tunnel (relayTunnel g.tunnelIdleSeconds env.tunnel
      (sendAll establishedText env.writes).rest env.tunnelOriginWrites).events fd
    refine ensures_tells (ensures_pure ⟨?_, ?_, rfl, rfl⟩)
    · rw [List.append_nil]
      have hcount : (relayTunnel g.tunnelIdleSeconds env.tunnel (sendAll establishedText env.writes).rest
          env.tunnelOriginWrites).total = deliveredTotal (tunnelEvents _) :=
        htotal.trans (congrArg deliveredTotal htun.symm)
      show Told requestId _ "allowed" 200 (relayTunnel _ _ _ _).total
      rw [hcount]
      refine .tunnelled ?_ (hall hrc)
      rw [outputs_said, hout]
      exact congrArg (fun es => _ :: (callsTo .client es).map Output.tunnelled) htun.symm
    · rw [List.append_nil, Noted.after_cons]
      show Agrees (n.after _) _
      rw [Noted.after_unnoted ?_]
      · exact hfol.same rfl rfl rfl
      · intro e he r calls heq
        subst heq
        cases fd <;> simp at he

theorem originConnect_unnoted (host : List Byte) (port : Nat) (trace : List ConnEvent) :
    let es := ClientEvent.originConnect host port :: trace.map .conn
    outputs (es.map .said) = [] ∧ tunnelEvents (es.map .said) = [] ∧ ∀ n : Noted, n.after (es.map .said) = n := by
  refine ⟨?_, ?_, Noted.after_unnoted (by simp)⟩
  · rw [outputs_map_said]
    exact List.filterMap_eq_nil_iff.2 (by simp [ClientEvent.output])
  · exact List.filterMap_eq_nil_iff.2 (by simp [obsTunnel])

theorem audited_connectOrigin (henv : env.Progress) (target : ParsedConnect)
    (hallow : (decisionEvaluate o.sig).action = .allow) (hbytes : o.byteCount = 0) (hfol : Agrees n o) :
    Ensures ok (connectOrigin g env requestId target o) (Audited requestId n o.host o.riskKnown) := by
  unfold connectOrigin
  dsimp only
  refine ensures_tells ?_
  obtain ⟨hout, htun, hnoted⟩ := originConnect_unnoted target.host target.port
    (originConnect g.allowPrivate env.connect target.host target.port).trace
  suffices h : Ensures ok _ (Audited requestId n o.host o.riskKnown) from
    h.mono fun t o' h => Audited.after (by rw [hnoted]; exact h) hout htun
  split
  · exact audited_blockNetwork hallow hbytes hfol
  · split
    · exact audited_badGateway hbytes hfol
    · exact audited_openTunnel henv _ hbytes hfol

/-! ### Plain URLs -/

theorem fetchEvents_unnoted (url : ParsedUrl) (r : FetchResult) :
    tunnelEvents ((fetchEvents url r).map .said) = [] ∧ ∀ n : Noted, n.after ((fetchEvents url r).map .said) = n := by
  refine ⟨List.filterMap_eq_nil_iff.2 ?_, Noted.after_unnoted ?_⟩
  · intro e he
    simp only [fetchEvents, List.map_append, List.map_cons, List.map_map, List.mem_append, List.mem_cons, List.mem_map,
      Function.comp_apply, List.not_mem_nil, List.map_nil, or_false] at he
    rcases he with (((( rfl | ⟨_, _, rfl⟩) | ⟨_, _, rfl⟩) | ⟨_, _, rfl⟩) | ⟨_, _, rfl⟩) | rfl <;> rfl
  · intro e he r' calls heq
    subst heq
    simp [fetchEvents] at he

theorem audited_storeFetched (key : Option (List Byte)) (r : FetchResult) (hfol : Agrees n o) :
    Ensures ok (storeFetched key r o) fun t o' => outputs t = [] ∧ tunnelEvents t = [] ∧ Agrees (n.after t) o' ∧
      o'.host = o.host ∧ o'.riskKnown = o.riskKnown ∧ o'.byteCount = o.byteCount ∧ o'.sig = o.sig := by
  unfold storeFetched
  split
  · refine ensures_query fun stored _ => ensures_pure ⟨rfl, rfl, ?_, ?_⟩
    · cases stored with
      | false => exact hfol.same rfl rfl rfl
      | true => exact ⟨hfol.sig, rfl, hfol.extras, hfol.tokens, hfol.room, by simp [Noted.see]⟩
    · cases stored <;> exact ⟨rfl, rfl, rfl, rfl⟩
  · exact ensures_pure ⟨rfl, rfl, hfol, rfl, rfl, rfl, rfl⟩

/-- What is sent after a fetch, if anything is. -/
inductive Replied (requestId : UInt64) (n : Noted) (o : Outcome) (r : FetchResult) (t : Trace) (o' : Outcome) : Prop
  | own : r.Quiet → Audited requestId n o.host o.riskKnown t o' → Replied requestId n o r t o'
  | nothing : ¬ r.Quiet → t = [] →
      o' = o.withStatus (if r.status = .ok then "allowed" else "relay_error") r.stats.originStatus →
      Replied requestId n o r t o'

theorem replied_replyFetched {r : FetchResult} (hallow : (decisionEvaluate o.sig).action = .allow)
    (hbytes : r.Quiet → o.byteCount = 0) (hfol : Agrees n o) :
    Ensures ok (replyFetched env requestId r o) (Replied requestId n o r) := by
  have hquiet : ∀ {p : Handler Outcome}, r.Quiet → (o.byteCount = 0 → Ensures ok p (Audited requestId n o.host o.riskKnown)) →
      Ensures ok p (Replied requestId n o r) :=
    fun hq hp => (hp (hbytes hq)).mono fun t o' h => .own hq h
  unfold replyFetched
  cases hs : r.status with
  | ok => exact ensures_pure (.nothing (by simp [FetchResult.Quiet, hs]) rfl (by rw [hs]; rfl))
  | errSend => exact ensures_pure (.nothing (by simp [FetchResult.Quiet, hs]) rfl (by rw [hs]; rfl))
  | errUnsafeAddress => exact hquiet (.inl hs) fun hb => audited_blockNetwork hallow hb hfol
  | errDns => exact hquiet (.inr (.inl hs)) fun hb => audited_badGateway hb hfol
  | errConnect => exact hquiet (.inr (.inr (.inl hs))) fun hb => audited_badGateway hb hfol
  | errTimeout =>
    dsimp only
    split
    · rename_i hzero
      exact hquiet (.inr (.inr (.inr ⟨.inl hs, hzero⟩))) fun hb => audited_error rfl hb hfol
    · rename_i hpos
      exact ensures_pure (.nothing (by simp [FetchResult.Quiet, hs, hpos]) rfl (by rw [hs]; rfl))
  | errRecv =>
    dsimp only
    split
    · rename_i hzero
      exact hquiet (.inr (.inr (.inr ⟨.inr hs, hzero⟩))) fun hb => audited_error rfl hb hfol
    · rename_i hpos
      exact ensures_pure (.nothing (by simp [FetchResult.Quiet, hs, hpos]) rfl (by rw [hs]; rfl))

/-- A relayed response, whole or broken off. -/
theorem FetchTold.told {r : FetchResult} (h : FetchTold r) (url : ParsedUrl)
    (hfetched : .said (.fetched url r.status r.received) ∈ t) (hout : outputs t = r.toClient.map (.relayed .origin)) :
    Told requestId t (if r.status = .ok then "allowed" else "relay_error") r.stats.originStatus r.stats.bytesRelayed := by
  by_cases hok : r.status = .ok
  · obtain ⟨hacc, hcount⟩ := h.whole (by simp [hok])
    rw [if_pos hok, hcount]
    rw [hok] at hfetched
    exact .relayed hfetched hout hacc h.status
  · rw [if_neg hok]
    exact .broken hfetched hok hout h.taken h.counted (fun hne => (h.whole hne).2) h.status

theorem audited_fetchPlain (henv : env.Progress) (url : ParsedUrl) (key : Option (List Byte))
    (hallow : (decisionEvaluate o.sig).action = .allow) (hfol : Agrees n o) :
    Ensures ok (fetchPlain g env requestId url key o) (Audited requestId n o.host o.riskKnown) := by
  unfold fetchPlain
  dsimp only
  have htold := @fetchAndRelay_told g.allowPrivate env.fetch henv.fetch url (if key.isSome then cacheDefaultMaxEntryBytes else 0)
  have hq0 := @fetchAndRelay_quiet_bytes g.allowPrivate env.fetch url (if key.isSome then cacheDefaultMaxEntryBytes else 0)
  have hqc := @fetchAndRelay_quiet g.allowPrivate env.fetch url (if key.isSome then cacheDefaultMaxEntryBytes else 0)
  generalize fetchAndRelay g.allowPrivate env.fetch url (if key.isSome then cacheDefaultMaxEntryBytes else 0) = r
    at htold hq0 hqc
  obtain ⟨htun, hnoted⟩ := fetchEvents_unnoted url r
  have hout := outputs_fetchEvents url r
  refine ensures_tells ((audited_storeFetched key r (o := { o with byteCount := r.stats.bytesRelayed })
    (hfol.same rfl rfl rfl)).bind fun t₁ o₁ hstore => ?_)
  obtain ⟨hout₁, htun₁, hfol₁, hhost, hrisk, hbytes, hsig⟩ := hstore
  refine (replied_replyFetched (by rw [hsig]; exact hallow) (fun hq => hbytes.trans (hq0 hq)) hfol₁).mono ?_
  intro t₂ o₂ hrep
  rw [← List.append_assoc]
  have htun' : tunnelEvents ((fetchEvents url r).map .said ++ t₁) = [] := by rw [tunnelEvents_append, htun, htun₁]; rfl
  have hnoted' : n.after ((fetchEvents url r).map .said ++ t₁) = n.after t₁ := by rw [Noted.after_append, hnoted]
  cases hrep with
  | own hq h =>
    have hquiet : outputs ((fetchEvents url r).map .said ++ t₁) = [] := by
      rw [outputs_append, hout, hqc hq, hout₁]
      rfl
    refine Audited.after ?_ hquiet htun'
    rw [hnoted', ← hhost, ← hrisk]
    exact h
  | nothing hq ht₂ ho₂ =>
    subst ht₂ ho₂
    rw [List.append_nil]
    refine ⟨?_, ?_, hhost, hrisk⟩
    · show Told requestId _ _ _ o₁.byteCount
      rw [hbytes]
      refine htold.told url ?_ ?_
      · simp [fetchEvents]
      · rw [outputs_append, hout, hout₁, List.append_nil]
    · rw [hnoted']
      exact hfol₁.same rfl rfl rfl

/-- The worker's word for the state of the cache. -/
theorem Agrees.cached (hfol : Agrees n o) (state : String)
    (hstate : state ∈ ["cache=bypass", "cache=hit", "cache=miss", "cache=stored"]) :
    Agrees { n with cacheState := some state } { o with cacheState := some state } :=
  ⟨hfol.sig, rfl, hfol.extras, hfol.tokens, hfol.room, fun _ hs => Option.some.inj hs ▸ hstate⟩

theorem audited_afterLookup (henv : env.Progress) (url : ParsedUrl) (key : List Byte)
    (hallow : (decisionEvaluate o.sig).action = .allow) (hfol : Agrees n o) (hit : Option (List Byte)) :
    Ensures ok (afterLookup g env requestId url key o hit) fun t o' =>
      Audited requestId n o.host o.riskKnown (.asked .cacheIsEnabled true :: .asked (.cacheLookup key) hit :: t) o' := by
  cases hit with
  | none =>
    have hfetch := @audited_fetchPlain ok g env requestId _ { o with cacheState := some "cache=miss" } henv url (some key)
      hallow (hfol.cached "cache=miss" (by simp))
    exact hfetch.mono fun t o' h =>
      @Audited.after requestId n t o' [.asked .cacheIsEnabled true, .asked (.cacheLookup key) none] _ _ h rfl rfl
  | some data =>
    refine ensures_tells (ensures_pure ⟨?_, ?_, rfl, rfl⟩)
    · rw [List.append_nil]
      refine @Told.cached _ _ key _ _ (by simp) ?_ (sendAll_accepted data env.writes).1
      rw [outputs_asked, outputs_asked]
      exact outputs_cached _
    · rw [List.append_nil, Noted.after_cons, Noted.after_cons, Noted.after_unnoted (by simp)]
      exact (hfol.cached "cache=hit" (by simp)).same rfl rfl rfl

theorem audited_servePlain (henv : env.Progress) (url : ParsedUrl) (hallow : (decisionEvaluate o.sig).action = .allow)
    (hfol : Agrees n o) : Ensures ok (servePlain g env requestId url o) (Audited requestId n o.host o.riskKnown) := by
  refine ensures_query fun on _ => ?_
  cases on with
  | false =>
    exact (audited_fetchPlain henv url none hallow hfol).mono fun t o' h =>
      @Audited.after requestId n t o' [.asked .cacheIsEnabled false] _ _ h rfl rfl
  | true =>
    simp only [Bool.not_true, Bool.false_eq_true, if_false]
    cases hkey : cacheKeyOf url with
    | none =>
      have hfetch := @audited_fetchPlain ok g env requestId _ { o with cacheState := some "cache=bypass" } henv url none
        hallow (hfol.cached "cache=bypass" (by simp))
      exact hfetch.mono fun t o' h =>
        @Audited.after requestId n t o' [.asked .cacheIsEnabled true] _ _ h rfl rfl
    | some key => exact ensures_query fun hit _ => audited_afterLookup henv url key hallow hfol hit

/-! ### The destination checks -/

theorem reputationTokens_ok (r : ReputationResult) :
    ∀ token ∈ reputationTokens r, token ≠ [] ∧ token.all isTokenByte = true := by
  have hverdict : ∀ v : ReputationVerdict, (bytes "rep=" ++ bytes (reputationVerdictName v)) ≠ [] ∧
      (bytes "rep=" ++ bytes (reputationVerdictName v)).all isTokenByte = true := by
    intro v
    cases v <;> decide
  have hreason : ∀ v : ReputationReason, (bytes "rep_reason=" ++ bytes (reputationReasonName v)) ≠ [] ∧
      (bytes "rep_reason=" ++ bytes (reputationReasonName v)).all isTokenByte = true := by
    intro v
    cases v <;> decide
  intro token htoken
  rcases List.mem_cons.1 htoken with rfl | htoken
  · exact hverdict _
  · split at htoken
    · rw [List.mem_singleton.1 htoken]
      exact hreason _
    · cases htoken

/-- A verdict and its tokens. -/
theorem Agrees.judged (hfol : Agrees n o) (hroom : (spaced n.tokens).length ≤ 14) (host : List Byte)
    (r : ReputationResult) : Agrees (n.see (.asked (.reputationCheck host) r)) (o.noteReputation r) := by
  have hverdict : (bytes "rep=" ++ bytes (reputationVerdictName r.verdict)).length ≤ 15 := by
    cases r.verdict <;> decide
  have hreason : (bytes "rep_reason=" ++ bytes (reputationReasonName r.reason)).length ≤ 20 := by
    cases r.reason <;> decide
  have hne := fun token htoken => (hfol.tokens token htoken).1
  have hne' : ∀ token ∈ n.tokens ++ [bytes "rep=" ++ bytes (reputationVerdictName r.verdict)], token ≠ [] := by
    intro token htoken
    rcases List.mem_append.1 htoken with htoken | htoken
    · exact hne token htoken
    · rw [List.mem_singleton.1 htoken]
      simp [bytes]
  have hlen := length_spaced_snoc_le n.tokens (bytes "rep=" ++ bytes (reputationVerdictName r.verdict))
  have hlen' := length_spaced_snoc_le (n.tokens ++ [bytes "rep=" ++ bytes (reputationVerdictName r.verdict)])
    (bytes "rep_reason=" ++ bytes (reputationReasonName r.reason))
  have hadd := @extrasAdd_spaced _ hne (bytes "rep=" ++ bytes (reputationVerdictName r.verdict)) (by omega)
  have hadd' := @extrasAdd_spaced _ hne' (bytes "rep_reason=" ++ bytes (reputationReasonName r.reason)) (by omega)
  refine ⟨?_, hfol.cacheState, ?_, ?_, ?_, hfol.state⟩
  · show { o.sig with reputationChecked := true, reputation := r.verdict } = _
    rw [hfol.sig]
    rfl
  · show (if r.verdict = .unavailable then extrasAdd (extrasAdd o.extras _) _ else extrasAdd o.extras _) =
      spaced (n.tokens ++ reputationTokens r)
    rw [hfol.extras, hadd]
    unfold reputationTokens
    split
    · rw [hadd', List.append_assoc]
      rfl
    · rfl
  · intro token htoken
    rcases List.mem_append.1 htoken with htoken | htoken
    · exact hfol.tokens token htoken
    · exact reputationTokens_ok r token htoken
  · show (spaced (n.tokens ++ reputationTokens r)).length ≤ 51
    unfold reputationTokens
    split
    · rw [List.append_cons]
      omega
    · omega

theorem Checked.agrees {host : List Byte} (h : Checked ok host o t o') (hfol : Agrees n o)
    (hroom : (spaced n.tokens).length ≤ 14) : Agrees (n.after t) o' := by
  cases h with
  | denied p hok hne =>
    have hnoted : n.after [.asked (.policyCheckHost host) p] = { n with sig := { n.sig with policyDenied := true } } :=
      if_pos hne
    rw [hnoted]
    exact ⟨congrArg (fun sig => { sig with policyDenied := true }) hfol.sig, hfol.cacheState, hfol.extras, hfol.tokens,
      hfol.room, hfol.state⟩
  | unasked on hok => exact hfol
  | judged on r hok => exact hfol.judged hroom host r

theorem Checked.frame {host : List Byte} (h : Checked ok host o t o') :
    tunnelEvents t = [] ∧ o'.host = o.host ∧ o'.riskKnown = o.riskKnown ∧ o'.byteCount = o.byteCount ∧
      o'.sig.portDenied = o.sig.portDenied ∧ o'.sig.networkUnsafe = o.sig.networkUnsafe := by
  cases h <;> exact ⟨rfl, rfl, rfl, rfl, rfl, rfl⟩

theorem decisionEvaluate_blocked {sig : DecisionInputs} (hport : sig.portDenied = false) (hnet : sig.networkUnsafe = false)
    (hblock : (decisionEvaluate sig).action = .block) :
    (decisionEvaluate sig).reason = .policy ∨ (decisionEvaluate sig).reason = .reputation := by
  rcases sig with ⟨p, u, d, c, v⟩
  obtain rfl : d = false := hport
  obtain rfl : u = false := hnet
  revert hblock
  cases p <;> cases c <;> cases v <;> decide

/-- A destination that has to pass the checks first. -/
theorem audited_guarded {host : List Byte} {next : Outcome → Handler Outcome} (hport : o.sig.portDenied = false)
    (hnet : o.sig.networkUnsafe = false) (hbytes : o.byteCount = 0) (hfol : Agrees n o)
    (hroom : (spaced n.tokens).length ≤ 14)
    (hnext : ∀ n o₁, (decisionEvaluate o₁.sig).action = .allow → o₁.byteCount = 0 → Agrees n o₁ →
      Ensures ok (next o₁) (Audited requestId n o₁.host o₁.riskKnown)) :
    Ensures ok (checkDestination env host o >>= fun o => unlessBlocked env requestId o (next o))
      (Audited requestId n o.host o.riskKnown) := by
  refine Ensures.bind (fun t o₁ h => runs_checkDestination h) fun t o₁ hchecked => ?_
  have hfol₁ := hchecked.agrees hfol hroom
  obtain ⟨htun, hhost, hrisk, hbytes₁, hport₁, hnet₁⟩ := hchecked.frame
  have hout := hchecked.checksOnly.outputs_eq
  suffices h : Ensures ok (unlessBlocked env requestId o₁ (next o₁)) (Audited requestId (n.after t) o.host o.riskKnown) from
    h.mono fun t' o' h => h.after hout htun
  rw [← hhost, ← hrisk]
  unfold unlessBlocked
  split
  · rename_i hblock
    have hreason := decisionEvaluate_blocked (hport₁.trans hport) (hnet₁.trans hnet) hblock
    refine audited_block ?_ (hbytes₁.trans hbytes) ?_
    · rcases hreason with hr | hr <;> rw [hr] <;> decide
    · rcases hreason with hr | hr <;> rw [hr] <;> exact hfol₁
  · rename_i hallow
    refine hnext _ o₁ ?_ (hbytes₁.trans hbytes) hfol₁
    cases hact : (decisionEvaluate o₁.sig).action with
    | allow => rfl
    | block => exact absurd hact hallow

/-! ## The request -/

/-- What is noted before anything is asked. -/
def connectNoted : Noted := { tokens := [bytes "method=connect"] }

theorem agrees_start {o : Outcome} (hsig : o.sig = {}) (hcache : o.cacheState = none) (hextras : o.extras = []) :
    Agrees {} o :=
  ⟨hsig, hcache, hextras, by simp, by simp [spaced], by simp⟩

theorem agrees_connect {o : Outcome} (hsig : o.sig = {}) (hcache : o.cacheState = none)
    (hextras : o.extras = extrasAdd [] (bytes "method=connect")) : Agrees connectNoted o := by
  have htoken : bytes "method=connect" ≠ [] ∧ (bytes "method=connect").all isTokenByte = true ∧
      extrasAdd [] (bytes "method=connect") = spaced [bytes "method=connect"] ∧
      (spaced [bytes "method=connect"]).length ≤ 51 := by decide
  obtain ⟨hne, hbytes, hadd, hlen⟩ := htoken
  exact ⟨hsig, hcache, hextras.trans hadd, by simpa [connectNoted] using ⟨hne, List.all_eq_true.1 hbytes⟩, hlen,
    by simp [connectNoted]⟩

/-- What is noted about a request line alone. -/
def Request.noted : Request → Noted
  | .plain _ => {}
  | .connect _ => connectNoted

theorem audited_serveRequest (henv : env.Progress) (req : Request) :
    Ensures ok (serveRequest g env requestId req) (Audited requestId req.noted req.host true) := by
  cases req with
  | plain url =>
    exact audited_guarded rfl rfl rfl (agrees_start rfl rfl rfl) (by simp [Request.noted, spaced])
      fun n o hallow _ hfol => audited_servePlain henv url hallow hfol
  | connect target =>
    have hroom : (spaced connectNoted.tokens).length ≤ 14 := by decide
    have hfol : Agrees connectNoted
        { host := target.host, riskKnown := true, extras := extrasAdd [] (bytes "method=connect") } :=
      agrees_connect rfl rfl rfl
    simp only [serveRequest, connectTarget]
    split
    · exact @audited_block ok env requestId connectNoted
        { host := target.host, riskKnown := true, extras := extrasAdd [] (bytes "method=connect"),
          sig := { portDenied := true } } .port (by decide) rfl
        ⟨rfl, rfl, hfol.extras, hfol.tokens, hfol.room, hfol.state⟩
    · exact audited_guarded rfl rfl rfl hfol hroom fun n o hallow hbytes hfol =>
        audited_connectOrigin henv target hallow hbytes hfol

/-- Whether the request line asks for a tunnel. -/
def asksTunnel (rs : List (RecvOutcome 1)) : Bool :=
  let (status, line, _) := readRequestLine rs
  decide (status = .ok) && requestIsConnect (stripLine line)

/-- The host the request line names, if it is one. -/
def requestedHost (rs : List (RecvOutcome 1)) : Option (List Byte) :=
  let (status, line, _) := readRequestLine rs
  if status = .ok then
    if requestIsConnect (stripLine line) then (parseConnectRequest (stripLine line)).toOption.map (·.host)
    else (parseHttpUrl (stripLine line)).toOption.map (·.host)
  else none

def lineNoted (rs : List (RecvOutcome 1)) : Noted := if asksTunnel rs then connectNoted else {}

/-- A request that is not served. -/
theorem audited_closed {o : Outcome} (hbytes : o.byteCount = 0) (hfol : Agrees n o) :
    Ensures ok (pure (o.withStatus "client_closed" 0)) (Audited requestId n o.host o.riskKnown) := by
  refine ensures_pure ⟨?_, hfol.same rfl rfl rfl, rfl, rfl⟩
  show Told requestId [] "client_closed" 0 o.byteCount
  rw [hbytes]
  exact .closed rfl

theorem audited_serveClient (henv : env.Progress) :
    Ensures ok (serveClient g env requestId) (Audited requestId (lineNoted env.client)
      ((requestedHost env.client).getD [ch '-']) (readRequest env.client).isSome) := by
  unfold serveClient lineNoted asksTunnel requestedHost readRequest
  obtain ⟨status, line, rest⟩ := readRequestLine env.client
  have hplain : Agrees {} {} := agrees_start rfl rfl rfl
  cases status with
  | tooLarge => exact audited_error rfl rfl hplain
  | timeout => exact audited_error rfl rfl hplain
  | badBytes => exact audited_error rfl rfl hplain
  | closed => exact audited_closed rfl hplain
  | error => exact audited_closed rfl hplain
  | ok =>
    simp only [decide_true, Bool.true_and, if_true]
    by_cases hc : requestIsConnect (stripLine line) = true
    · simp only [hc, if_true, handleConnect]
      have hconnect : ∀ {o : Outcome}, o.sig = {} → o.cacheState = none →
          o.extras = extrasAdd [] (bytes "method=connect") → Agrees connectNoted o := agrees_connect
      cases hp : parseConnectRequest (stripLine line) with
      | error ps => exact audited_error rfl rfl (hconnect rfl rfl rfl)
      | ok target =>
        dsimp only
        cases hs : (consumeRequestHeaders rest).1 with
        | ok => exact audited_serveRequest henv (.connect target)
        | timeout => exact audited_error rfl rfl (hconnect rfl rfl rfl)
        | tooLarge => exact audited_error rfl rfl (hconnect rfl rfl rfl)
        | closed => exact audited_closed rfl (hconnect rfl rfl rfl)
        | error => exact audited_closed rfl (hconnect rfl rfl rfl)
        | badBytes => exact audited_closed rfl (hconnect rfl rfl rfl)
    · simp only [hc, if_false, handlePlain, Bool.false_eq_true]
      cases hp : parseHttpUrl (stripLine line) with
      | error ps => exact audited_error rfl rfl hplain
      | ok url => exact audited_serveRequest henv (.plain url)

end

end SecureProxy
