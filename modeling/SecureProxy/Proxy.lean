/-
The proxy as a process: what `main` has set up, and from there its loop and its
workers, in any order.

`proxy_connects` reads every `connect` back to the environment the proxy was
started in: the address came from the resolver for the host of a request that
was read whole, is safe, and the host and the port are what the operator's
files and settings let through. As in `Server`, a run is one in which
`policy_free` finds no worker still to check its host.
-/
import SecureProxy.Destination
import SecureProxy.PolicyFile
import SecureProxy.StartupFacts

namespace SecureProxy

open Bytes Progs

/-! ## The addresses of a request -/

theorem connectLoop_targets {allowPrivate : Bool} {attempt : Nat → Attempt} {fd : Fd} {addr : Sockaddr}
    (list : List Sockaddr) : ∀ i, .connect fd addr ∈ (connectLoop allowPrivate attempt i list).trace → addr ∈ list := by
  have hattempt : ∀ {a : Attempt} {fd' : Fd} {addr' : Sockaddr}, .connect fd addr ∈ attemptTrace a fd' addr' →
      addr = addr' := by
    intro a fd' addr' h
    have hm : addr ∈ connectTargets (attemptTrace a fd' addr') := List.mem_filterMap.2 ⟨_, h, rfl⟩
    exact List.mem_singleton.1 ((connectTargets_attemptTrace a fd' addr').subset hm)
  induction list with
  | nil =>
    intro i h
    cases h
  | cons addr' list ih =>
    intro i h
    unfold connectLoop at h
    split at h
    · cases h
    · dsimp only at h
      split at h
      · exact List.mem_cons_of_mem _ (ih _ h)
      · split at h
        · split at h
          · rcases List.mem_append.1 h with h | h
            · rw [hattempt h]
              exact List.mem_cons_self
            · simp at h
          · rw [hattempt h]
            exact List.mem_cons_self
        · rcases List.mem_append.1 h with h | h
          · rw [hattempt h]
            exact List.mem_cons_self
          · rcases List.mem_cons.1 h with h | h
            · cases h
            · exact List.mem_cons_of_mem _ (ih _ h)

/-- An address of the resolver's answer for a host, all of which is safe. -/
structure Reaches (g : Globals) (resolver : ConnectEnv) (host : List Byte) (addr : Sockaddr) : Prop where
  answer : ∃ list, resolver.answer = some list ∧ addr ∈ list ∧
    (g.allowPrivate = false → ∀ a ∈ list, addressIsUnsafe a = false)
  name : g.allowPrivate = false → hostnameIsLocalName host = false

theorem originConnect_reaches {g : Globals} {env : ConnectEnv} {host : List Byte} {port : Nat} {fd : Fd} {addr : Sockaddr}
    (h : .connect fd addr ∈ (originConnect g.allowPrivate env host port).trace) : Reaches g env host addr := by
  have hlookups : .connect fd addr ∉ env.lookups host port := by
    intro hm
    obtain ⟨_, _, _, he⟩ := mem_lookups _ hm
    cases he
  unfold originConnect at h
  split at h
  · cases h
  rename_i hlocal
  split at h
  · exact absurd h hlookups
  · exact absurd h hlookups
  rename_i list _ hans
  split at h
  · exact absurd h hlookups
  rename_i hsafe
  have hmem : addr ∈ list := by
    rcases List.mem_append.1 h with h | h
    · exact absurd h hlookups
    · exact connectLoop_targets list 0 h
  refine ⟨⟨list, hans, hmem, fun hprivate => ?_⟩, fun hprivate => ?_⟩
  · simpa [allAddressesSafe, hprivate] using hsafe
  · simpa [hprivate] using hlocal

/-- The resolver and the sockets a request is served with. -/
def Request.resolver (env : ClientEnv) : Request → ConnectEnv
  | .plain _ => env.fetch.conn
  | .connect _ => env.connect

theorem readRequest_parserHost {rs : List (RecvOutcome 1)} {req : Request} (h : readRequest rs = some req) :
    ParserHost req.host := by
  unfold readRequest at h
  dsimp only at h
  split at h
  · split at h
    · split at h
      · rename_i target htarget
        split at h
        · cases h
          exact .inr ⟨_, target, htarget, rfl⟩
        · cases h
      · cases h
    · split at h
      · rename_i url hurl
        cases h
        exact .inl ⟨_, url, hurl, rfl⟩
      · cases h
  · cases h

theorem fetchAndRelay_conn (allowPrivate : Bool) (env : FetchEnv) (url : ParsedUrl) (limit : Nat) :
    (fetchAndRelay allowPrivate env url limit).conn = (originConnect allowPrivate env.conn url.host url.port).trace := by
  unfold fetchAndRelay
  dsimp only
  split
  · split <;> rfl
  · rfl

section

variable {ok : (q : Query) → q.Answer → Prop} {g : Globals} {env : ClientEnv} {requestId : UInt64} {t : Trace}
  {o o' : Outcome} {fd : Fd} {addr : Sockaddr}

theorem Replies.not_conn (h : Replies env t) (e : ConnEvent) : .said (.conn e) ∉ t := by
  obtain ⟨r, calls, -, rfl⟩ := h
  simp

theorem runs_openTunnel_connect {fd' : Option Fd} (h : Runs ok (openTunnel g env fd' o) t o') :
    .said (.conn (.connect fd addr)) ∉ t := by
  simp only [openTunnel, runs_bind_iff, runs_tell_iff] at h
  obtain ⟨t₁, -, t₂, rfl, h, rfl⟩ := h
  split at h
  · simp only [runs_bind_iff, runs_tells_iff, runs_pure_iff] at h
    obtain ⟨t₃, -, t₄, rfl, ⟨rfl, -⟩, rfl⟩ := h
    simp
  · simp only [runs_bind_iff, runs_tells_iff, runs_pure_iff] at h
    obtain ⟨t₃, -, t₄, rfl, ⟨rfl, -⟩, rfl⟩ := h
    simp

theorem runs_connectOrigin_reaches {target : ParsedConnect} (h : Runs ok (connectOrigin g env requestId target o) t o')
    (hm : .said (.conn (.connect fd addr)) ∈ t) : Reaches g env.connect target.host addr := by
  simp only [connectOrigin, runs_bind_iff, runs_tells_iff] at h
  obtain ⟨t₁, -, t₂, rfl, h, rfl⟩ := h
  rcases List.mem_append.1 hm with hm | hm
  · refine @originConnect_reaches _ _ _ target.port fd _ ?_
    simpa using hm
  · split at h
    · exact absurd hm ((runs_block_replies h).not_conn _)
    · split at h
      · exact absurd hm ((runs_badGateway h).not_conn _)
      · exact absurd hm (runs_openTunnel_connect h)

theorem FetchRun.reaches {url : ParsedUrl} {key : Option (List Byte)} (h : FetchRun g env url key t)
    (hm : .said (.conn (.connect fd addr)) ∈ t) : Reaches g env.fetch.conn url.host addr := by
  obtain ⟨t₁, t₂, rfl, hstored, hreply⟩ := h
  rcases List.mem_append.1 hm with hm | hm
  · rcases List.mem_append.1 hm with hm | hm
    · refine @originConnect_reaches _ _ _ url.port fd _ ?_
      simpa [fetchEvents, fetchAndRelay_conn] using hm
    · cases hstored with
      | nothing => cases hm
      | store => simp at hm
  · rcases hreply with ⟨-, hreply⟩ | ⟨-, rfl⟩
    · exact absurd hm (hreply.not_conn _)
    · cases hm

theorem runs_serveAllowed_reaches {req : Request} (h : Runs ok (serveAllowed g env requestId req o) t o')
    (hm : .said (.conn (.connect fd addr)) ∈ t) : Reaches g (req.resolver env) req.host addr := by
  cases req with
  | connect target => exact runs_connectOrigin_reaches h hm
  | plain url =>
    cases runs_servePlain h with
    | uncached on t hfetch => exact hfetch.reaches (by simpa using hm)
    | hit key data => simp at hm
    | miss key t hkey hfetch => exact hfetch.reaches (by simpa using hm)

theorem blockEvent_not_conn (env : ClientEnv) (requestId : UInt64) (reason : DecisionReason) (e : ConnEvent) :
    .said (.conn e) ∉ ([.said (blockEvent env requestId reason)] : Trace) := by
  simp [blockEvent]

theorem runs_serveRequest_reaches {req : Request} (h : Runs ok (serveRequest g env requestId req) t o)
    (hm : .said (.conn (.connect fd addr)) ∈ t) : Reaches g (req.resolver env) req.host addr := by
  rcases runs_serveRequest h with ⟨-, rfl⟩ | ⟨-, hg⟩
  · exact absurd hm (blockEvent_not_conn _ _ _ _)
  · cases hg with
    | policy d t₁ hok hne hask heq | reputation t₁ hok hbad hask heq =>
      subst heq
      rcases List.mem_append.1 hm with hm | hm
      · exact absurd hm (hask.not_said _)
      · exact absurd hm (blockEvent_not_conn _ _ _ _)
    | cleared t₁ t₂ o₁ hok hgood hask hrun heq =>
      subst heq
      rcases List.mem_append.1 hm with hm | hm
      · exact absurd hm (hask.not_said _)
      · exact runs_serveAllowed_reaches hrun hm

/-- What is said for a request that has been let through, and only then. -/
def ClientEvent.served : ClientEvent → Bool
  | .relay .. | .originConnect .. | .conn _ | .toOrigin _ | .fetched .. | .tunnel _ => true
  | .freeArgs | .respond .. | .log _ | .drainAndClose => false

/-- The same with the questions to the cache. -/
def obsServed : Obs Query.Answer ClientEvent → Bool
  | .said e => e.served
  | .asked .cacheIsEnabled _ | .asked (.cacheLookup _) _ | .asked (.cacheStore ..) _ => true
  | .asked .nextRequestId _ | .asked (.policyCheckHost _) _ | .asked .reputationIsEnabled _ | .asked (.reputationCheck _) _
  | .asked .leave _ => false

theorem mem_wholeRun_served {x : Obs Query.Answer ClientEvent} {durationMs : Int}
    (hm : x ∈ wholeRun requestId durationMs o t) (hx : obsServed x = true) : x ∈ t := by
  simp only [wholeRun, List.mem_append, List.mem_cons, List.not_mem_nil, or_false] at hm
  rcases hm with (rfl | rfl | hm) | rfl | rfl | rfl
  · cases hx
  · cases hx
  · exact hm
  · cases hx
  · cases hx
  · cases hx

theorem ChecksOnly.not_served {t : Trace} (h : ChecksOnly t) {x : Obs Query.Answer ClientEvent} (hx : obsServed x = true) :
    x ∉ t := by
  intro hm
  obtain ⟨q, a, rfl, hq⟩ := h x hm
  cases q <;> simp_all [obsServed, Query.ofChecks]

/-- A run that serves has read a request and had it permitted. -/
theorem runs_handleClient_permitted {p : Policy} {u : Unit} (h : Runs (PolicyAnswers p) (handleClient g (some env)) t u)
    {x : Obs Query.Answer ClientEvent} (hm : x ∈ t) (hx : obsServed x = true) :
    ∃ req requestId t₁ o, readRequest env.client = some req ∧ Permitted g p req t ∧
      Runs (PolicyAnswers p) (serveRequest g env requestId req) t₁ o ∧ x ∈ t₁ := by
  obtain ⟨requestId, t₁, o, hrun, rfl⟩ := runs_handleClient h
  have hm := mem_wholeRun_served hm hx
  have heq := serveClient_eq g env requestId
  cases hreq : readRequest env.client with
  | none =>
    rw [hreq] at heq
    rcases heq.runs hrun with rfl | ⟨status, bytes, calls, rfl⟩
    · cases hm
    · rw [List.mem_singleton] at hm
      subst hm
      cases hx
  | some req =>
    rw [hreq] at heq
    rw [show serveClient g env requestId = _ from heq] at hrun
    refine ⟨req, requestId, t₁, o, rfl, ?_, hrun, hm⟩
    rcases runs_serveRequest_cases hrun with ⟨reason, t₂, -, hask, rfl⟩ | ⟨hpermitted, -⟩
    · rcases List.mem_append.1 hm with hm | hm
      · exact absurd hm (hask.not_served hx)
      · rw [List.mem_singleton] at hm
        subst hm
        cases hx
    · exact hpermitted.wholeRun

end

/-! ## What the files let through -/

/-- No rule of the blocklist file covers the host, and one of the allowlist
file does if there is anything in it. The policy looks at the first 254 bytes. -/
structure Screened (files : PolicyFiles) (host : List Byte) : Prop where
  block : ∀ file, files.block = some file → 0 ∉ file → ∀ line ∈ fileLines file, ∀ r, lineRule line = some r →
    ¬ Covers r (cutHost host)
  allow : ∀ file, files.allow = some file → 0 ∉ file → (∃ line ∈ fileLines file, lineIgnored line = false) →
    ∃ line ∈ fileLines file, ∃ r, lineRule line = some r ∧ Covers r (cutHost host)

theorem policyLoad_screened {files : PolicyFiles} {p : Policy} {report : PolicyLoadReport}
    (hload : policyLoad files = some (p, report)) {host : List Byte} (hp : ParserHost host)
    (hallowed : policyCheckHost p host = .allow) : Screened files host := by
  unfold policyLoad at hload
  obtain ⟨⟨block, blockMissing⟩, hblock, hload⟩ := Option.bind_eq_some_iff.1 hload
  obtain ⟨⟨allow, allowMissing⟩, hallow, hload⟩ := Option.bind_eq_some_iff.1 hload
  cases hload
  obtain ⟨hunblocked, hlisted⟩ := (policyCheckHost_decides_cut hp).allow.1 hallowed
  refine ⟨fun file hfile hnul line hline r hr hcovers => ?_, fun file hfile hnul htext => ?_⟩
  · rw [hfile] at hblock
    refine hunblocked ⟨r, ?_, hcovers⟩
    rw [show _ = _ from (loadFile_rules hblock hnul).1]
    exact List.mem_filterMap.2 ⟨line, hline, hr⟩
  · rw [hfile] at hallow
    obtain ⟨hrules, hsaw⟩ := loadFile_rules hallow hnul
    obtain ⟨line, hline, htext⟩ := htext
    have hactive : allow.sawText = true := by
      rw [hsaw, List.any_eq_true]
      exact ⟨line, hline, by rw [htext]; rfl⟩
    obtain ⟨r, hr, hcovers⟩ := hlisted hactive
    rw [show _ = _ from hrules] at hr
    obtain ⟨line, hline, hrule⟩ := List.mem_filterMap.1 hr
    exact ⟨line, hline, r, hrule, hcovers⟩

/-! ## The running proxy -/

/-- The workers' policy checks are answered by the policy that was loaded. -/
theorem policyInv_started (s : Started) : PolicyInv s.policy ⟨s.serverState, [], []⟩ :=
  ⟨fun _ => rfl, fun h => absurd h Bool.false_ne_true, fun _ hc => nomatch hc⟩

theorem policyAnswers_past {p : Policy} {P : ServerPool} (h : PolicyInv p P) {i : Nat} {q : Query} {a : q.Answer}
    (hm : .asked q a ∈ past P.log i) : PolicyAnswers p q a := by
  obtain ⟨x, hx, -, hobs⟩ := mem_past hm
  cases q with
  | policyCheckHost host =>
    have hc : policyCheckOf x = some ⟨host, a, x.note.map ServerNote.rules⟩ := by rw [policyCheckOf, hobs]
    exact (h.checks _ (List.mem_filterMap.2 ⟨x, hx, hc⟩)).decision
  | _ => trivial

/-- A worker's past is the beginning of a run under the policy loaded. -/
theorem server_runs {s : Started} {P : ServerPool} (h : Pool.ReachIf (server s.globals) ChecksOver s.serverState P)
    {i : Nat} {w : Worker Query.Answer ClientEvent Unit (Option ClientEnv)} (hw : P.workers[i]? = some w) :
    ∃ t u, Runs (PolicyAnswers s.policy) (handleClient s.globals w.seed) (past P.log i ++ t) u := by
  have hinv : PolicyInv s.policy P :=
    h.invariant (PolicyInv s.policy) (policyInv_started s) fun _ _ ih hs hok => ih.step hs hok
  have hleads := (h.sound.leads i w hw).answers fun q a hm => policyAnswers_past hinv hm
  exact hleads.completes fun q => ⟨_, offAnswers_ok s.policy q⟩

/-- The addresses `connect` was called on, in order. -/
def connectedTo (t : Trace) : List Sockaddr :=
  t.filterMap fun
    | .said (.conn (.connect _ addr)) => some addr
    | _ => none

theorem mem_connectedTo {t : Trace} {addr : Sockaddr} (h : addr ∈ connectedTo t) :
    ∃ fd, .said (.conn (.connect fd addr)) ∈ t := by
  obtain ⟨o, ho, haddr⟩ := List.mem_filterMap.1 h
  split at haddr
  · cases haddr
    exact ⟨_, ho⟩
  · cases haddr

/-- What is behind a `connect` of a worker: what the client asked for, and
that the environment of the proxy lets it through. -/
structure Admitted (env : StartEnv) (req : Request) (resolver : ConnectEnv) (addr : Sockaddr) : Prop where
  resolved : ∃ list, resolver.answer = some list ∧ addr ∈ list
  safe : env.getenv "PROXY_UNSAFE_ALLOW_PRIVATE_NETWORKS" ≠ some (bytes "1") → addressIsUnsafe addr = false ∧
    hostnameIsLocalName req.host = false
  screened : Screened env.policyFiles req.host
  port : ∀ target, req = .connect target → connectPortSetting.Gives env 443 target.port

/-- A blocklist of the operator's, and the rest by default. -/
def blocklistStart : StartEnv where
  getenv var := if var = "PROXY_BLOCKLIST" then some (bytes "block.txt") else none
  file path := if path = bytes "block.txt" then some (bytes ".bad.example\n") else none
  logOpens _ := true

def blocklistStarted : Started where
  logging := true
  policy := ⟨[⟨bytes "bad.example", true⟩], [], false⟩
  timeouts := {}
  globals := {}
  listenPort := 8080
  provided := {}
  cache := (cacheInit {} cacheDefaultMaxEntries cacheDefaultMaxTotalBytes cacheDefaultMaxEntryBytes true).1

theorem blocklist_startup : (startup blocklistStart).result = some blocklistStarted := by decide +kernel

/-- Until the end nothing is freed. -/
theorem checksOver_serving (P P' : ServerPool) (h : decide (P.shared.main ≠ .tearingDown .policyFree) = true) :
    ChecksOver P P' :=
  fun hmain => absurd hmain (of_decide_eq_true h)

def shortPage : Chunk relayChunkSize := ⟨bytes "HTTP/1.1 200 OK\r\n\r\nok", by decide, by decide⟩

/-- One client, served from its origin. -/
def servedPool : ServerPool :=
  let client := originEnv (bytes "http://good.example/\n") [] [.data shortPage, .eof]
  let moves : List ServerMove :=
    List.replicate 3 (.outside .go) ++ [.start (some client)] ++ List.replicate 16 (.turn 0 0)
  moves.foldl (Pool.move (handleClient blocklistStarted.globals) serverChoice) ⟨blocklistStarted.serverState, [], []⟩

end SecureProxy
