/-
The runs of one worker, function by function: what each part of
`handle_client` can leave in a trace, what of it the client sees, and what
the destination checks let through.
-/
import Mathlib.Data.Fin.VecNotation
import SecureProxy.FetchFacts
import SecureProxy.HandleClient

namespace SecureProxy

open Bytes Progs

abbrev Trace := List (Obs Query.Answer ClientEvent)

/-! ## What the client sees -/

/-- What is put on the client's socket. -/
inductive Output where
  | response (r : ProxyResponse) (calls : List WriteCall)
  | relayed (src : RelaySource) (call : WriteCall)
  | tunnelled (call : WriteCall)
  deriving DecidableEq

def ClientEvent.output : ClientEvent → Option Output
  | .respond r calls => some (.response r calls)
  | .relay src call => some (.relayed src call)
  | .tunnel (.written .client call) => some (.tunnelled call)
  | _ => none

def obsOutput : Obs Query.Answer ClientEvent → Option Output
  | .said e => e.output
  | .asked .. => none

def outputs (t : Trace) : List Output := t.filterMap obsOutput

@[simp] theorem outputs_nil : outputs [] = [] := rfl

@[simp] theorem outputs_append (t t' : Trace) : outputs (t ++ t') = outputs t ++ outputs t' :=
  List.filterMap_append

@[simp] theorem outputs_asked (q : Query) (a : q.Answer) (t : Trace) : outputs (.asked q a :: t) = outputs t := rfl

theorem outputs_said (e : ClientEvent) (t : Trace) : outputs (.said e :: t) = e.output.toList ++ outputs t := by
  unfold outputs
  rw [List.filterMap_cons]
  simp only [obsOutput]
  cases e.output <;> rfl

theorem outputs_map_said (es : List ClientEvent) : outputs (es.map .said) = es.filterMap ClientEvent.output := by
  rw [outputs, List.filterMap_map]
  rfl

/-- A question of `check_destination`. -/
def Query.ofChecks : Query → Bool
  | .policyCheckHost _ | .reputationIsEnabled | .reputationCheck _ => true
  | _ => false

/-- A trace of such questions alone. -/
def ChecksOnly (t : Trace) : Prop := ∀ e ∈ t, ∃ q a, e = Obs.asked q a ∧ q.ofChecks = true

theorem ChecksOnly.outputs_eq {t : Trace} (h : ChecksOnly t) : outputs t = [] := by
  refine List.filterMap_eq_nil_iff.2 fun e he => ?_
  obtain ⟨q, a, rfl, -⟩ := h e he
  rfl

theorem ChecksOnly.not_said {t : Trace} (h : ChecksOnly t) (e : ClientEvent) : Obs.said e ∉ t := by
  intro he
  obtain ⟨q, a, heq, -⟩ := h _ he
  cases heq

theorem ChecksOnly.not_asked {t : Trace} (h : ChecksOnly t) {q : Query} (hq : q.ofChecks = false) (a : q.Answer) :
    Obs.asked q a ∉ t := by
  intro he
  obtain ⟨q', a', heq, hq'⟩ := h _ he
  cases heq
  rw [hq] at hq'
  cases hq'

/-! ## Responses -/

section

variable {ok : (q : Query) → q.Answer → Prop} {env : ClientEnv} {requestId : UInt64} {t : Trace} {o o' : Outcome}

/-- The block page of a request, for one of the reasons. -/
def blockPage (requestId : UInt64) (reason : DecisionReason) : ProxyResponse :=
  .blockPage reason (blockHeader requestId (blockBody requestId reason).length ++ blockBody requestId reason)

/-- The event of sending it. -/
def blockEvent (env : ClientEnv) (requestId : UInt64) (reason : DecisionReason) : ClientEvent :=
  .respond (blockPage requestId reason) (sendAll (blockPage requestId reason).text env.writes).calls

theorem sendBlockPage_eq (env : ClientEnv) (requestId : UInt64) (reason : DecisionReason) :
    sendBlockPage env requestId reason = .tell (blockEvent env requestId reason) := by
  have hpage := decisionBuildBlockResponse_some requestId reason
  unfold sendBlockPage
  -- abstract, or the match would evaluate the page
  generalize decisionBuildBlockResponse 2048 requestId reason = page at hpage ⊢
  subst hpage
  rfl

theorem runs_block {reason : DecisionReason} (h : Runs ok (block env requestId reason o) t o') :
    t = [.said (blockEvent env requestId reason)] := by
  simp only [block, sendBlockPage_eq, runs_bind_iff, runs_tell_iff, runs_pure_iff] at h
  obtain ⟨t₁, u, t₂, rfl, ⟨rfl, -⟩, rfl⟩ := h
  rfl

theorem runs_error {status : Nat} {text : String} {body : List Byte}
    (h : Runs ok (do sendErrorResponse env status text body; return o) t o') :
    t = [.said (.respond (.error status (errorResponse status text body))
      [sendOnce (errorResponse status text body) env.writes])] := by
  simp only [sendErrorResponse, runs_bind_iff, runs_tell_iff, runs_pure_iff] at h
  obtain ⟨t₁, u, t₂, rfl, ⟨rfl, -⟩, rfl⟩ := h
  rfl

/-! ## The destination checks -/

/-- The questions of `check_destination` and the signals it leaves. -/
inductive Checked (ok : (q : Query) → q.Answer → Prop) (host : List Byte) (o : Outcome) : Trace → Outcome → Prop
  | denied (p : PolicyDecision) : ok (.policyCheckHost host) p → p ≠ .allow →
      Checked ok host o [.asked (.policyCheckHost host) p] { o with sig := { o.sig with policyDenied := true } }
  | unasked (on : Bool) : ok (.policyCheckHost host) .allow →
      Checked ok host o [.asked (.policyCheckHost host) .allow, .asked .reputationIsEnabled on] o
  | judged (on : Bool) (r : ReputationResult) : ok (.policyCheckHost host) .allow →
      Checked ok host o
        [.asked (.policyCheckHost host) .allow, .asked .reputationIsEnabled on, .asked (.reputationCheck host) r]
        (o.noteReputation r)

theorem runs_checkDestination {host : List Byte} (h : Runs ok (checkDestination env host o) t o') :
    Checked ok host o t o' := by
  simp only [checkDestination, Query.ask, runs_bind_iff, runs_query_iff] at h
  obtain ⟨t₁, p, t₂, ⟨hp, rfl⟩, h, rfl⟩ := h
  split at h
  · rename_i hne
    obtain ⟨rfl, rfl⟩ := runs_pure_iff.1 h
    exact .denied p hp hne
  · rename_i heq
    obtain rfl : p = .allow := by simpa using heq
    simp only [checkReputation, Query.ask, runs_bind_iff, runs_query_iff] at h
    obtain ⟨t₃, on, t₄, ⟨-, rfl⟩, h, rfl⟩ := h
    split at h
    · simp only [runs_bind_iff, runs_query_iff, runs_pure_iff] at h
      obtain ⟨t₅, r, t₆, ⟨-, rfl⟩, ⟨rfl, rfl⟩, rfl⟩ := h
      exact .judged on r hp
    · obtain ⟨rfl, rfl⟩ := runs_pure_iff.1 h
      exact .unasked on hp

theorem Checked.checksOnly {host : List Byte} (h : Checked ok host o t o') : ChecksOnly t := by
  cases h with
  | denied p => simp [ChecksOnly, Query.ofChecks]
  | unasked on =>
    simp only [ChecksOnly, List.forall_mem_cons]
    exact ⟨⟨_, _, rfl, rfl⟩, ⟨_, _, rfl, rfl⟩, by simp⟩
  | judged on r =>
    simp only [ChecksOnly, List.forall_mem_cons]
    exact ⟨⟨_, _, rfl, rfl⟩, ⟨_, _, rfl, rfl⟩, ⟨_, _, rfl, rfl⟩, by simp⟩

/-- The reputation of `host` was asked for and is bad. -/
def FoundMalicious (host : List Byte) (t : Trace) : Prop :=
  ∃ r : ReputationResult, .asked (.reputationCheck host) r ∈ t ∧ r.verdict = .malicious

/-- How the checks can end, from no signal at all. -/
inductive Guarded (ok : (q : Query) → q.Answer → Prop) (env : ClientEnv) (requestId : UInt64) (host : List Byte)
    (next : Outcome → Handler Outcome) (t : Trace) (o' : Outcome) : Prop
  | policy (p : PolicyDecision) (t₁ : Trace) : ok (.policyCheckHost host) p → p ≠ .allow → ChecksOnly t₁ →
      t = t₁ ++ [.said (blockEvent env requestId .policy)] → Guarded ok env requestId host next t o'
  | reputation (t₁ : Trace) : ok (.policyCheckHost host) .allow → FoundMalicious host t₁ → ChecksOnly t₁ →
      t = t₁ ++ [.said (blockEvent env requestId .reputation)] → Guarded ok env requestId host next t o'
  | cleared (t₁ t₂ : Trace) (o : Outcome) : ok (.policyCheckHost host) .allow → ¬ FoundMalicious host t₁ → ChecksOnly t₁ →
      Runs ok (next o) t₂ o' → t = t₁ ++ t₂ → Guarded ok env requestId host next t o'

theorem decisionEvaluate_reputation (v : ReputationVerdict) :
    ((decisionEvaluate { reputationChecked := true, reputation := v }).action = .block ↔ v = .malicious) ∧
      (v = .malicious → (decisionEvaluate { reputationChecked := true, reputation := v }).reason = .reputation) := by
  cases v <;> decide

theorem runs_guarded {host : List Byte} {next : Outcome → Handler Outcome} (hsig : o.sig = {})
    (h : Runs ok (checkDestination env host o >>= fun o => unlessBlocked env requestId o (next o)) t o') :
    Guarded ok env requestId host next t o' := by
  simp only [runs_bind_iff] at h
  obtain ⟨t₁, o₁, t₂, h₁, h₂, rfl⟩ := h
  have hc := runs_checkDestination h₁
  have hask := hc.checksOnly
  unfold unlessBlocked at h₂
  cases hc with
  | denied p hok hne =>
    have hd : decisionEvaluate { o.sig with policyDenied := true } = ⟨.block, .policy, 100⟩ := by
      rw [hsig]
      decide
    rw [hd] at h₂
    exact .policy p _ hok hne hask (by rw [runs_block h₂])
  | unasked on hok =>
    have hd : (decisionEvaluate o.sig).action = .allow := by rw [hsig]; decide
    rw [hd, if_neg (by decide)] at h₂
    exact .cleared _ t₂ _ hok (by simp [FoundMalicious]) hask h₂ rfl
  | judged on r hok =>
    obtain ⟨hact, hreason⟩ := decisionEvaluate_reputation r.verdict
    have hs : (o.noteReputation r).sig = { reputationChecked := true, reputation := r.verdict } := by
      simp [Outcome.noteReputation, hsig]
    rw [hs] at h₂
    by_cases hbad : r.verdict = .malicious
    · rw [if_pos (hact.2 hbad), hreason hbad] at h₂
      exact .reputation _ hok ⟨r, by simp, hbad⟩ hask (by rw [runs_block h₂])
    · rw [if_neg (mt hact.1 hbad)] at h₂
      refine .cleared _ t₂ _ hok ?_ hask h₂ rfl
      intro h'
      obtain ⟨r', hr', hbad'⟩ := h'
      simp only [List.mem_cons, reduceCtorEq, List.not_mem_nil, or_false, false_or, Obs.asked.injEq, true_and,
        false_and, heq_eq_eq] at hr'
      exact hbad (hr' ▸ hbad')

end

/-! ## Behind the checks -/

section

variable {ok : (q : Query) → q.Answer → Prop} {g : Globals} {env : ClientEnv} {requestId : UInt64} {t : Trace}
  {o o' : Outcome}

/-- A response the proxy gives for an origin, and the calls that carry it. -/
structure OwnReply (env : ClientEnv) (r : ProxyResponse) (calls : List WriteCall) : Prop where
  status : r.status = 403 ∨ r.status = 502 ∨ r.status = 504
  nonempty : r.text ≠ []
  calls : calls = (sendAll r.text env.writes).calls ∨ calls = [sendOnce r.text env.writes]

theorem errorResponse_ne_nil (status : Nat) (text : String) (body : List Byte) : errorResponse status text body ≠ [] := by
  unfold errorResponse
  dsimp only
  split
  · simp [bytes]
  · simp

theorem blockEvent_ownReply (env : ClientEnv) (requestId : UInt64) (reason : DecisionReason) :
    OwnReply env (blockPage requestId reason) (sendAll (blockPage requestId reason).text env.writes).calls := by
  refine ⟨.inl rfl, ?_, .inl rfl⟩
  have : blockHeaderOpen ≠ [] := by simp [blockHeaderOpen, bytes]
  simp [blockPage, ProxyResponse.text, blockHeader, this]

theorem error_ownReply (env : ClientEnv) {status : Nat} (h : status = 502 ∨ status = 504) (text : String)
    (body : List Byte) :
    OwnReply env (.error status (errorResponse status text body))
      [sendOnce (errorResponse status text body) env.writes] :=
  ⟨.inr h, errorResponse_ne_nil _ _ _, .inr rfl⟩

/-- The trace of one such reply. -/
def Replies (env : ClientEnv) (t : Trace) : Prop := ∃ r calls, OwnReply env r calls ∧ t = [.said (.respond r calls)]

theorem runs_block_replies {reason : DecisionReason} (h : Runs ok (block env requestId reason o) t o') :
    Replies env t :=
  ⟨_, _, blockEvent_ownReply env requestId reason, runs_block h⟩

theorem runs_badGateway {status : FetchStatus} (h : Runs ok (badGateway env status o) t o') : Replies env t :=
  ⟨_, _, error_ownReply env (.inl rfl) _ _, runs_error h⟩

/-- The proxy answers for the origin exactly where it may. -/
theorem runs_replyFetched {r : FetchResult} (h : Runs ok (replyFetched env requestId r o) t o') :
    r.Quiet ∧ Replies env t ∨ ¬ r.Quiet ∧ t = [] := by
  unfold replyFetched at h
  unfold FetchResult.Quiet
  cases hs : r.status with
  | ok =>
    rw [hs] at h
    exact .inr ⟨by simp, (runs_pure_iff.1 h).1⟩
  | errSend =>
    rw [hs] at h
    exact .inr ⟨by simp, (runs_pure_iff.1 h).1⟩
  | errUnsafeAddress =>
    rw [hs] at h
    exact .inl ⟨by simp, runs_block_replies h⟩
  | errDns =>
    rw [hs] at h
    exact .inl ⟨by simp, runs_badGateway h⟩
  | errConnect =>
    rw [hs] at h
    exact .inl ⟨by simp, runs_badGateway h⟩
  | errTimeout =>
    rw [hs] at h
    dsimp only at h
    split at h
    · exact .inl ⟨by simpa, _, _, error_ownReply env (.inr rfl) _ _, runs_error h⟩
    · exact .inr ⟨by simpa, (runs_pure_iff.1 h).1⟩
  | errRecv =>
    rw [hs] at h
    dsimp only at h
    split at h
    · exact .inl ⟨by simpa, _, _, error_ownReply env (.inl rfl) _ _, runs_error h⟩
    · exact .inr ⟨by simpa, (runs_pure_iff.1 h).1⟩

/-- What a finished fetch does with the cache. -/
inductive Stored (key : Option (List Byte)) (r : FetchResult) : Trace → Prop
  | nothing : Stored key r []
  | store (k data : List Byte) (ttl : Nat) (stored : Bool) : key = some k → cacheCandidate r = some (data, ttl) →
      Stored key r [.asked (.cacheStore k data ttl) stored]

theorem runs_storeFetched {key : Option (List Byte)} {r : FetchResult} (h : Runs ok (storeFetched key r o) t o') :
    Stored key r t := by
  unfold storeFetched at h
  split at h
  · rename_i k data ttl hc
    simp only [Query.ask, runs_bind_iff, runs_query_iff, runs_pure_iff] at h
    obtain ⟨t₁, stored, t₂, ⟨-, rfl⟩, ⟨rfl, -⟩, rfl⟩ := h
    exact .store k data ttl stored rfl hc
  · rw [(runs_pure_iff.1 h).1]
    exact .nothing

/-- How much of a response is copied for the cache. -/
def captureLimit (key : Option (List Byte)) : Nat := if key.isSome then cacheDefaultMaxEntryBytes else 0

/-- A fetch, its store and its reply. -/
def FetchRun (g : Globals) (env : ClientEnv) (url : ParsedUrl) (key : Option (List Byte)) (t : Trace) : Prop :=
  ∃ t₁ t₂, t = (fetchEvents url (fetchAndRelay g.allowPrivate env.fetch url (captureLimit key))).map .said ++ t₁ ++ t₂ ∧
    Stored key (fetchAndRelay g.allowPrivate env.fetch url (captureLimit key)) t₁ ∧
    ((fetchAndRelay g.allowPrivate env.fetch url (captureLimit key)).Quiet ∧ Replies env t₂ ∨
      ¬ (fetchAndRelay g.allowPrivate env.fetch url (captureLimit key)).Quiet ∧ t₂ = [])

theorem runs_fetchPlain {url : ParsedUrl} {key : Option (List Byte)}
    (h : Runs ok (fetchPlain g env requestId url key o) t o') : FetchRun g env url key t := by
  simp only [fetchPlain, runs_bind_iff, runs_tells_iff] at h
  obtain ⟨t₁, -, t₂, rfl, ⟨t₃, o₁, t₄, hstore, hreply, rfl⟩, rfl⟩ := h
  exact ⟨t₃, t₄, by rw [List.append_assoc]; rfl, runs_storeFetched hstore, runs_replyFetched hreply⟩

/-- A plain request whose destination has passed the checks. -/
inductive PlainRun (g : Globals) (env : ClientEnv) (url : ParsedUrl) : Trace → Prop
  | uncached (on : Bool) (t : Trace) : FetchRun g env url none t → PlainRun g env url (.asked .cacheIsEnabled on :: t)
  | hit (key data : List Byte) : cacheKeyOf url = some key →
      PlainRun g env url (.asked .cacheIsEnabled true :: .asked (.cacheLookup key) (some data) ::
        ((sendAll data env.writes).calls.map (.relay .cached)).map .said)
  | miss (key : List Byte) (t : Trace) : cacheKeyOf url = some key → FetchRun g env url (some key) t →
      PlainRun g env url (.asked .cacheIsEnabled true :: .asked (.cacheLookup key) none :: t)

theorem runs_servePlain {url : ParsedUrl} (h : Runs ok (servePlain g env requestId url o) t o') :
    PlainRun g env url t := by
  simp only [servePlain, Query.ask, runs_bind_iff, runs_query_iff] at h
  obtain ⟨t₁, on, t₂, ⟨-, rfl⟩, h, rfl⟩ := h
  cases on with
  | false => exact .uncached false t₂ (runs_fetchPlain h)
  | true =>
    simp only [Bool.not_true, Bool.false_eq_true, if_false] at h
    cases hkey : cacheKeyOf url with
    | none =>
      rw [hkey] at h
      exact .uncached true t₂ (runs_fetchPlain h)
    | some key =>
      rw [hkey] at h
      simp only [runs_bind_iff, runs_query_iff] at h
      obtain ⟨t₃, hit, t₄, ⟨-, rfl⟩, h, rfl⟩ := h
      cases hit with
      | none => exact .miss key t₄ hkey (runs_fetchPlain h)
      | some data =>
        simp only [afterLookup, serveCached, runs_bind_iff, runs_tells_iff, runs_pure_iff] at h
        obtain ⟨t₅, -, t₆, rfl, ⟨rfl, -⟩, rfl⟩ := h
        rw [List.append_nil]
        exact .hit key data hkey

end

/-! ## The request -/

/-- A client that sends these bytes, one at a time. -/
def clientSends (s : List Byte) : List (RecvOutcome 1) := s.map fun b => .data ⟨[b], by simp, by simp⟩

/-- A client that sends these bytes, and nobody else on the network. -/
def idleEnv (s : List Byte) : ClientEnv where
  client := clientSends s
  hostIsNumericAddress _ := false
  fetch := ⟨⟨none, none, fun _ => ⟨none, false, .err, false, false, none⟩⟩, [], [], [], fun _ => true⟩
  connect := ⟨none, none, fun _ => ⟨none, false, .err, false, false, none⟩⟩

/-- A client that sends these bytes, and an origin on a public address. -/
def originEnv (s : List Byte) (requestWrites : List WriteOutcome) (chunks : List (RecvOutcome relayChunkSize)) :
    ClientEnv :=
  let addr := Sockaddr.inet ![93, 184, 216, 34]
  { idleEnv s with
    fetch := ⟨⟨none, some [addr], fun _ => ⟨some 7, true, .ok, true, true, some addr⟩⟩, requestWrites, chunks, [],
      fun _ => true⟩ }

/-- A request that was read and parsed. -/
inductive Request where
  | plain (url : ParsedUrl)
  | connect (target : ParsedConnect)
  deriving DecidableEq

def Request.host : Request → List Byte
  | .plain url => url.host
  | .connect target => target.host

def Request.port : Request → Nat
  | .plain url => url.port
  | .connect target => target.port

/-- The request on a client's socket: its line and, for CONNECT, its header
block. -/
def readRequest (rs : List (RecvOutcome 1)) : Option Request :=
  let (status, line, rest) := readRequestLine rs
  if status = .ok then
    if requestIsConnect (stripLine line) then
      match parseConnectRequest (stripLine line) with
      | .ok target => if (consumeRequestHeaders rest).1 = .ok then some (.connect target) else none
      | .error _ => none
    else match parseHttpUrl (stripLine line) with
      | .ok url => some (.plain url)
      | .error _ => none
  else none

/-- What is done for it. -/
def serveRequest (g : Globals) (env : ClientEnv) (requestId : UInt64) : Request → Handler Outcome
  | .plain url => checkDestination env url.host { host := url.host, riskKnown := true } >>= fun o =>
      unlessBlocked env requestId o (servePlain g env requestId url o)
  | .connect target => connectTarget g env requestId target
      { host := target.host, extras := extrasAdd [] (bytes "method=connect") }

/-- What is done for it once its destination has passed the checks. -/
def serveAllowed (g : Globals) (env : ClientEnv) (requestId : UInt64) : Request → Outcome → Handler Outcome
  | .plain url => servePlain g env requestId url
  | .connect target => connectOrigin g env requestId target

/-- Only the one port may be tunnelled to. -/
def Request.PortOk (g : Globals) (req : Request) : Prop := ∀ target, req = .connect target → target.port = g.connectPort

theorem runs_serveRequest {ok : (q : Query) → q.Answer → Prop} {g : Globals} {env : ClientEnv} {requestId : UInt64}
    {req : Request} {t : Trace} {o : Outcome} (h : Runs ok (serveRequest g env requestId req) t o) :
    (¬ req.PortOk g ∧ t = [.said (blockEvent env requestId .port)]) ∨
    (req.PortOk g ∧ Guarded ok env requestId req.host (serveAllowed g env requestId req) t o) := by
  cases req with
  | plain url => exact .inr ⟨fun _ => Request.noConfusion, runs_guarded rfl h⟩
  | connect target =>
    simp only [serveRequest, connectTarget] at h
    by_cases hport : target.port ≠ g.connectPort
    · rw [if_pos hport] at h
      exact .inl ⟨fun hok => hport (hok target rfl), runs_block h⟩
    · rw [if_neg hport] at h
      refine .inr ⟨fun target' heq => ?_, runs_guarded rfl h⟩
      cases heq
      exact not_not.1 hport

/-- Without a request there is at most an error response. -/
def refuses (env : ClientEnv) (p : Handler Outcome) : Prop :=
  (∃ o, p = pure o) ∨ ∃ status text body o, p = do sendErrorResponse env status text body; return o

theorem serveClient_eq (g : Globals) (env : ClientEnv) (requestId : UInt64) :
    match readRequest env.client with
    | some req => serveClient g env requestId = serveRequest g env requestId req
    | none => refuses env (serveClient g env requestId) := by
  unfold serveClient readRequest
  obtain ⟨status, line, rest⟩ := readRequestLine env.client
  cases status with
  | tooLarge => exact .inr ⟨_, _, _, _, rfl⟩
  | timeout => exact .inr ⟨_, _, _, _, rfl⟩
  | badBytes => exact .inr ⟨_, _, _, _, rfl⟩
  | closed => exact .inl ⟨_, rfl⟩
  | error => exact .inl ⟨_, rfl⟩
  | ok =>
    simp only [if_true]
    by_cases hc : requestIsConnect (stripLine line) = true
    · simp only [hc, if_true, handleConnect]
      cases hp : parseConnectRequest (stripLine line) with
      | error ps => exact .inr ⟨_, _, _, _, rfl⟩
      | ok target =>
        dsimp only
        cases hs : (consumeRequestHeaders rest).1 with
        | ok => rfl
        | timeout => exact .inr ⟨_, _, _, _, rfl⟩
        | tooLarge => exact .inr ⟨_, _, _, _, rfl⟩
        | closed => exact .inl ⟨_, rfl⟩
        | error => exact .inl ⟨_, rfl⟩
        | badBytes => exact .inl ⟨_, rfl⟩
    · simp only [hc, if_false, handlePlain, Bool.false_eq_true]
      cases hp : parseHttpUrl (stripLine line) with
      | error ps => exact .inr ⟨_, _, _, _, rfl⟩
      | ok url => rfl

theorem refuses.runs {ok : (q : Query) → q.Answer → Prop} {env : ClientEnv} {p : Handler Outcome} {t : Trace}
    {o : Outcome} (hp : refuses env p) (h : Runs ok p t o) :
    t = [] ∨ ∃ status bytes calls, t = [.said (.respond (.error status bytes) calls)] := by
  rcases hp with ⟨o, rfl⟩ | ⟨status, text, body, o, rfl⟩
  · exact .inl (runs_pure_iff.1 h).1
  · exact .inr ⟨_, _, _, runs_error h⟩

/-- The trace of `handle_client` around the trace of its request. -/
def wholeRun (requestId : UInt64) (durationMs : Int) (o : Outcome) (t : Trace) : Trace :=
  .said .freeArgs :: .asked .nextRequestId requestId :: t ++
    [.said (.log (logRecord requestId durationMs o)), .said .drainAndClose, .asked .leave ()]

theorem runs_handleClient {ok : (q : Query) → q.Answer → Prop} {g : Globals} {env : ClientEnv} {t : Trace} {u : Unit}
    (h : Runs ok (handleClient g (some env)) t u) :
    ∃ requestId t₁ o, Runs ok (serveClient g env requestId) t₁ o ∧ t = wholeRun requestId env.durationMs o t₁ := by
  simp only [handleClient, Query.ask, runs_bind_iff, runs_tell_iff, runs_query_iff] at h
  obtain ⟨t₁, -, t₂, rfl, ⟨t₃, requestId, t₄, ⟨-, rfl⟩, ⟨t₅, o, t₆, hs, ⟨t₇, -, t₈, rfl, ⟨t₉, -, t₁₀, rfl, ⟨-, rfl⟩, rfl⟩,
    rfl⟩, rfl⟩, rfl⟩, rfl⟩ := h
  exact ⟨requestId, t₅, o, hs, by simp [wholeRun]⟩

section

variable (requestId : UInt64) (durationMs : Int) (o : Outcome) (t : Trace)

@[simp] theorem outputs_wholeRun : outputs (wholeRun requestId durationMs o t) = outputs t := by
  simp [wholeRun, outputs_said, ClientEvent.output]

@[simp] theorem foundMalicious_wholeRun (host : List Byte) :
    FoundMalicious host (wholeRun requestId durationMs o t) ↔ FoundMalicious host t := by
  simp [FoundMalicious, wholeRun]

theorem said_wholeRun {e : ClientEvent} (h : .said e ∈ wholeRun requestId durationMs o t) :
    .said e ∈ t ∨ e = .freeArgs ∨ e = .log (logRecord requestId durationMs o) ∨ e = .drainAndClose := by
  simp only [wholeRun, List.mem_append, List.mem_cons, List.not_mem_nil, or_false, reduceCtorEq, Obs.said.injEq] at h
  tauto

end

end SecureProxy
