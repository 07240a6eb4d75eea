/-
A worker connects out only to a destination that passed every check, and a
client whose destination did not pass sees a block page and nothing else.
-/
import SecureProxy.HandleClientFacts

namespace SecureProxy

open Bytes Progs

/-- The answers a worker gets while the loaded rules are in place: any at all
but those of the policy. -/
def PolicyAnswers (p : Policy) : (q : Query) → q.Answer → Prop
  | .policyCheckHost host, a => a = policyCheckHost p host
  | _, _ => True

/-- The destination of a request may be talked to, as far as a run has told. -/
structure Permitted (g : Globals) (p : Policy) (req : Request) (t : Trace) : Prop where
  port : req.PortOk g
  policy : policyCheckHost p req.host = .allow
  reputation : ¬ FoundMalicious req.host t

/-- The first check that fails, in the order of the tests. -/
inductive FirstDenial (g : Globals) (p : Policy) (req : Request) (t : Trace) : DecisionReason → Prop
  | port : ¬ req.PortOk g → FirstDenial g p req t .port
  | policy : req.PortOk g → policyCheckHost p req.host ≠ .allow → FirstDenial g p req t .policy
  | reputation : req.PortOk g → policyCheckHost p req.host = .allow → FoundMalicious req.host t →
      FirstDenial g p req t .reputation

/-! ## Behind the checks -/

/-- The only connection is to `host` and `port`. -/
def ClientEvent.ConnectsTo (host : List Byte) (port : Nat) : ClientEvent → Prop
  | .originConnect h n => h = host ∧ n = port
  | _ => True

def Query.NotReputation : Query → Prop
  | .reputationCheck _ => False
  | _ => True

/-- Behind the checks the reputation is not asked again, and the one
connection made is to the host and port that were checked. -/
structure StaysOn {α : Type} (host : List Byte) (port : Nat) (p : Handler α) : Prop where
  all : p.All Query.NotReputation (ClientEvent.ConnectsTo host port)

/-- A question of the response cache's. -/
def Query.OfCache : Query → Prop
  | .cacheIsEnabled | .cacheLookup _ | .cacheStore .. => True
  | _ => False

/-- Anything but what stands around a request in `handle_client`; a connection
is to `host` and `port`. -/
def ClientEvent.BehindChecks (host : List Byte) (port : Nat) : ClientEvent → Prop
  | .originConnect h n => h = host ∧ n = port
  | .freeArgs | .log _ | .drainAndClose => False
  | _ => True

/-- All that is asked and said behind the checks. -/
structure Behind {α : Type} (host : List Byte) (port : Nat) (p : Handler α) : Prop where
  all : p.All Query.OfCache (ClientEvent.BehindChecks host port)

/-- The proxy's own responses have one of these statuses, a tunnel goes with
the 200, and nothing is logged yet. -/
def ClientEvent.Within (S : List Nat) : ClientEvent → Prop
  | .respond r _ => r.status ∈ S
  | .tunnel _ => 200 ∈ S
  | .log _ => False
  | _ => True

/-- The request line was not found too large. -/
def Outcome.Sized (o : Outcome) : Prop := o.decision ≠ "too_large"

/-- A program that stays behind the checks, answers only these statuses, and
returns what is in `post`. -/
structure ServesHost {α : Type} (host : List Byte) (port : Nat) (S : List Nat) (post : α → Prop) (p : Handler α) :
    Prop where
  spec : p.Spec Query.OfCache (fun e => e.BehindChecks host port ∧ e.Within S) post

section

variable {α β : Type} {post : α → Prop} {g : Globals} {env : ClientEnv} {requestId : UInt64} {host : List Byte} {port : Nat}
  {S : List Nat} {o : Outcome}

theorem ServesHost.bind {mid : α → Prop} {post : β → Prop} {p : Handler α} {f : α → Handler β}
    (hp : ServesHost host port S mid p) (hf : ∀ a, mid a → ServesHost host port S post (f a)) :
    ServesHost host port S post (p >>= f) :=
  ⟨hp.spec.bind fun a ha => (hf a ha).spec⟩

theorem ServesHost.pure {a : α} (h : post a) : ServesHost host port S post (Pure.pure a) := ⟨spec_pure h⟩

theorem ServesHost.ask {q : Query} (h : q.OfCache) : ServesHost host port S (fun _ => True) q.ask := ⟨spec_query h⟩

theorem ServesHost.tell {e : ClientEvent} (h : e.BehindChecks host port) (hS : e.Within S) :
    ServesHost host port S (fun _ => True) (.tell e) :=
  ⟨spec_tell ⟨h, hS⟩⟩

theorem ServesHost.tells {es : List ClientEvent} (h : ∀ e ∈ es, e.BehindChecks host port ∧ e.Within S) :
    ServesHost host port S (fun _ => True) (.tells es) :=
  ⟨spec_tells h⟩

theorem sized_withStatus {decision : String} {status : Nat} (h : decision ≠ "too_large") :
    (o.withStatus decision status).Sized :=
  h

theorem block_serves {reason : DecisionReason} (h : 403 ∈ S) :
    ServesHost host port S Outcome.Sized (block env requestId reason o) := by
  unfold block
  rw [sendBlockPage_eq]
  exact .bind (.tell trivial h) fun _ _ => .pure (sized_withStatus (by cases reason <;> decide))

theorem error_serves {status : Nat} {text : String} {body : List Byte} (h : status ∈ S) (ho : o.Sized) :
    ServesHost host port S Outcome.Sized (do sendErrorResponse env status text body; return o) :=
  .bind (.tell trivial h) fun _ _ => .pure ho

theorem badGateway_serves {status : FetchStatus} (h : 502 ∈ S) :
    ServesHost host port S Outcome.Sized (badGateway env status o) :=
  error_serves h (sized_withStatus (by decide))

theorem openTunnel_serves {fd : Option Fd} (h : 200 ∈ S) : ServesHost host port S Outcome.Sized (openTunnel g env fd o) := by
  unfold openTunnel
  refine .bind (.tell trivial h) fun _ _ => ?_
  split
  · refine .bind (.tells ?_) fun _ _ => .pure (sized_withStatus (by decide))
    simp [ClientEvent.BehindChecks, ClientEvent.Within]
  · refine .bind (.tells ?_) fun _ _ => .pure (by simp [Outcome.Sized, Outcome.withStatus])
    simp [or_imp, forall_and, ClientEvent.BehindChecks, ClientEvent.Within, h]

theorem connectOrigin_serves {target : ParsedConnect} (h200 : 200 ∈ S) (h403 : 403 ∈ S) (h502 : 502 ∈ S) :
    ServesHost target.host target.port S Outcome.Sized (connectOrigin g env requestId target o) := by
  unfold connectOrigin
  refine .bind (.tells (by simp [ClientEvent.BehindChecks, ClientEvent.Within])) fun _ _ => ?_
  split
  · exact block_serves h403
  · split
    · exact badGateway_serves h502
    · exact openTunnel_serves h200

theorem replyFetched_serves {r : FetchResult} (h403 : 403 ∈ S) (h502 : 502 ∈ S) (h504 : 504 ∈ S) :
    ServesHost host port S Outcome.Sized (replyFetched env requestId r o) := by
  unfold replyFetched
  cases r.status with
  | ok => exact .pure (sized_withStatus (by decide))
  | errDns => exact badGateway_serves h502
  | errConnect => exact badGateway_serves h502
  | errSend => exact .pure (sized_withStatus (by decide))
  | errUnsafeAddress => exact block_serves h403
  | errRecv =>
    dsimp only
    split
    · exact error_serves h502 (sized_withStatus (by decide))
    · exact .pure (sized_withStatus (by decide))
  | errTimeout =>
    dsimp only
    split
    · exact error_serves h504 (sized_withStatus (by decide))
    · exact .pure (sized_withStatus (by decide))

theorem storeFetched_serves {key : Option (List Byte)} {r : FetchResult} :
    ServesHost host port S (fun _ => True) (storeFetched key r o) := by
  unfold storeFetched
  split
  · exact .bind (.ask trivial) fun _ _ => .pure trivial
  · exact .pure trivial

theorem fetchPlain_serves {url : ParsedUrl} {key : Option (List Byte)} (h403 : 403 ∈ S) (h502 : 502 ∈ S)
    (h504 : 504 ∈ S) : ServesHost url.host url.port S Outcome.Sized (fetchPlain g env requestId url key o) := by
  unfold fetchPlain
  refine .bind (.tells ?_) fun _ _ => .bind storeFetched_serves fun _ _ => replyFetched_serves h403 h502 h504
  simp [fetchEvents, or_imp, forall_and, ClientEvent.BehindChecks, ClientEvent.Within]

theorem servePlain_serves {url : ParsedUrl} (h403 : 403 ∈ S) (h502 : 502 ∈ S) (h504 : 504 ∈ S) :
    ServesHost url.host url.port S Outcome.Sized (servePlain g env requestId url o) := by
  unfold servePlain
  refine .bind (.ask trivial) fun _ _ => ?_
  split
  · exact fetchPlain_serves h403 h502 h504
  · split
    · exact fetchPlain_serves h403 h502 h504
    · refine .bind (.ask trivial) fun hit _ => ?_
      cases hit with
      | none => exact fetchPlain_serves h403 h502 h504
      | some data =>
        refine .bind (.tells ?_) fun _ _ => .pure (by simp [Outcome.Sized, Outcome.withStatus])
        simp [ClientEvent.BehindChecks, ClientEvent.Within]

end

theorem serveAllowed_behind (g : Globals) (env : ClientEnv) (requestId : UInt64) (req : Request) (o : Outcome) :
    Behind req.host req.port (serveAllowed g env requestId req o) := by
  have hserves : ServesHost req.host req.port [200, 403, 502, 504] Outcome.Sized (serveAllowed g env requestId req o) := by
    cases req with
    | plain url => exact servePlain_serves (by simp) (by simp) (by simp)
    | connect target => exact connectOrigin_serves (by simp) (by simp) (by simp)
  exact ⟨hserves.spec.all.mono (fun _ hq => hq) fun _ he => he.1⟩

theorem serveAllowed_staysOn (g : Globals) (env : ClientEnv) (requestId : UInt64) (req : Request) (o : Outcome) :
    StaysOn req.host req.port (serveAllowed g env requestId req o) := by
  refine ⟨(serveAllowed_behind g env requestId req o).all.mono (fun q hq => ?_) fun e he => ?_⟩
  · cases q <;> trivial
  · cases e <;> trivial

/-! ## One request -/

section

variable {p : Policy} {g : Globals} {env : ClientEnv} {requestId : UInt64} {req : Request} {t : Trace} {o : Outcome}

theorem FoundMalicious.append {host : List Byte} {t t' : Trace} (ht : ∀ r, .asked (.reputationCheck host) r ∉ t') :
    FoundMalicious host (t ++ t') ↔ FoundMalicious host t := by
  simp only [FoundMalicious, List.mem_append, ht, or_false]

/-- A request is blocked for the first check it fails, or goes on with none. -/
theorem runs_serveRequest_cases (h : Runs (PolicyAnswers p) (serveRequest g env requestId req) t o) :
    (∃ reason t₁, FirstDenial g p req t reason ∧ ChecksOnly t₁ ∧ t = t₁ ++ [.said (blockEvent env requestId reason)]) ∨
    (Permitted g p req t ∧ ∀ host port, .said (.originConnect host port) ∈ t → host = req.host ∧ port = req.port) := by
  have hblock : ∀ reason r, .asked (.reputationCheck req.host) r ∉
      ([.said (blockEvent env requestId reason)] : Trace) := by simp
  rcases runs_serveRequest h with ⟨hport, rfl⟩ | ⟨hport, hg⟩
  · exact .inl ⟨.port, [], .port hport, by simp [ChecksOnly], rfl⟩
  · cases hg with
    | policy d t₁ hok hne hask heq =>
      exact .inl ⟨.policy, t₁, .policy hport (by rw [← show d = _ from hok]; exact hne), hask, heq⟩
    | reputation t₁ hok hbad hask heq =>
      subst heq
      exact .inl ⟨.reputation, t₁, .reputation hport (Eq.symm hok) ((FoundMalicious.append (hblock _)).2 hbad), hask, rfl⟩
    | cleared t₁ t₂ o₁ hok hgood hask hrun heq =>
      subst heq
      obtain ⟨hconn, hquery⟩ := hrun.all (serveAllowed_staysOn g env requestId req o₁).all
      have hnot : ∀ r, .asked (.reputationCheck req.host) r ∉ t₂ := fun r hr => hquery _ _ hr
      refine .inr ⟨⟨hport, Eq.symm hok, (FoundMalicious.append hnot).not.2 hgood⟩, fun host port hm => ?_⟩
      rcases List.mem_append.1 hm with hm | hm
      · exact absurd hm (hask.not_said _)
      · exact hconn _ hm

end

/-! ## The whole of `handle_client` -/

theorem Permitted.wholeRun {p : Policy} {g : Globals} {req : Request} {t : Trace} (h : Permitted g p req t)
    {requestId : UInt64} {durationMs : Int} {o : Outcome} :
    Permitted g p req (wholeRun requestId durationMs o t) :=
  ⟨h.port, h.policy, (foundMalicious_wholeRun ..).not.2 h.reputation⟩

theorem FirstDenial.wholeRun {p : Policy} {g : Globals} {req : Request} {t : Trace} {reason : DecisionReason}
    (h : FirstDenial g p req t reason) {requestId : UInt64} {durationMs : Int} {o : Outcome} :
    FirstDenial g p req (wholeRun requestId durationMs o t) reason := by
  cases h with
  | port hport => exact .port hport
  | policy hport hpolicy => exact .policy hport hpolicy
  | reputation hport hpolicy hbad => exact .reputation hport hpolicy ((foundMalicious_wholeRun ..).2 hbad)

/-- An event that reaches out of the proxy to someone other than the client. -/
def ClientEvent.outbound : ClientEvent → Bool
  | .originConnect .. | .conn _ | .toOrigin _ => true
  | _ => false

/-- **No byte leaves for a destination that was not allowed**, and a client
whose destination was not sees one block page, for the first check that
failed. -/
theorem handleClient_destination {p : Policy} {g : Globals} {env : ClientEnv} {t : Trace} {u : Unit}
    (h : Runs (PolicyAnswers p) (handleClient g (some env)) t u) :
    (∀ e, .said e ∈ t → e.outbound = true →
      ∃ req, readRequest env.client = some req ∧ Permitted g p req t ∧ e.ConnectsTo req.host req.port) ∧
    ∀ req, readRequest env.client = some req → ¬ Permitted g p req t →
      ∃ requestId reason calls, .asked .nextRequestId requestId ∈ t ∧ FirstDenial g p req t reason ∧
        outputs t = [.response (blockPage requestId reason) calls] ∧ (blockPage requestId reason).status = 403 := by
  obtain ⟨requestId, t₁, o, hrun, rfl⟩ := runs_handleClient h
  have houtbound : ∀ e : ClientEvent, .said e ∈ wholeRun requestId env.durationMs o t₁ → e.outbound = true →
      (.said e : Obs Query.Answer ClientEvent) ∈ t₁ := by
    intro e hm he
    rcases said_wholeRun requestId env.durationMs o t₁ hm with hm | rfl | rfl | rfl
    · exact hm
    · cases he
    · cases he
    · cases he
  have heq := serveClient_eq g env requestId
  cases hreq : readRequest env.client with
  | none =>
    rw [hreq] at heq
    refine ⟨fun e hm he => ?_, fun req hsome => by cases hsome⟩
    have hm := houtbound e hm he
    rcases heq.runs hrun with rfl | ⟨status, bytes, calls, rfl⟩
    · cases hm
    · simp only [List.mem_singleton, Obs.said.injEq] at hm
      subst hm
      cases he
  | some req =>
    rw [hreq] at heq
    rw [show serveClient g env requestId = _ from heq] at hrun
    rcases runs_serveRequest_cases hrun with ⟨reason, t₂, hdenied, hask, rfl⟩ | ⟨hpermitted, hconn⟩
    · refine ⟨fun e hm he => ?_, fun req' hsome _ => ?_⟩
      · rcases List.mem_append.1 (houtbound e hm he) with hm | hm
        · exact absurd hm (hask.not_said e)
        · simp only [List.mem_singleton, Obs.said.injEq] at hm
          subst hm
          cases he
      · cases hsome
        refine ⟨requestId, reason, (sendAll (blockPage requestId reason).text env.writes).calls, by simp [wholeRun],
          hdenied.wholeRun, ?_, rfl⟩
        rw [outputs_wholeRun, outputs_append, hask.outputs_eq]
        rfl
    · refine ⟨fun e hm he => ⟨req, rfl, hpermitted.wholeRun, ?_⟩, fun req' hsome hnot => ?_⟩
      · have hm := houtbound e hm he
        cases e <;> first | trivial | exact hconn _ _ hm
      · cases hsome
        exact absurd hpermitted.wholeRun hnot

/-- The policy's answers, and for the rest those of modules that are off. -/
def offAnswers (p : Policy) : (q : Query) → q.Answer
  | .nextRequestId => 1
  | .policyCheckHost host => policyCheckHost p host
  | .reputationIsEnabled => false
  | .reputationCheck _ => ⟨.safe, .ok⟩
  | .cacheIsEnabled => false
  | .cacheLookup _ => none
  | .cacheStore .. => false
  | .leave => ()

theorem offAnswers_ok (p : Policy) (q : Query) : PolicyAnswers p q (offAnswers p q) := by
  cases q <;> simp [PolicyAnswers, offAnswers]

/-- A blocklisted host. -/
theorem handleClient_destination_blocklisted :
    let p : Policy := ⟨[⟨bytes "bad.example", true⟩], [], false⟩
    let env := idleEnv (bytes "http://www.bad.example/\r\n")
    let t := (runWith (offAnswers p) (handleClient {} (some env))).1
    readRequest env.client = some (.plain ⟨bytes "www.bad.example", 80, bytes "/"⟩) ∧
      ∃ requestId reason calls, .asked .nextRequestId requestId ∈ t ∧
        FirstDenial {} p (.plain ⟨bytes "www.bad.example", 80, bytes "/"⟩) t reason ∧
        outputs t = [.response (blockPage requestId reason) calls] ∧ (blockPage requestId reason).status = 403 :=
  ⟨by decide +kernel, (handleClient_destination (runs_runWith (offAnswers_ok _) _)).2 _ (by decide +kernel)
    fun h => absurd h.policy (by decide +kernel)⟩

end SecureProxy
