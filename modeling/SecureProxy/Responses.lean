/-
What a client gets: never two responses, and when the origin fails before its
first byte, a response of the proxy's own, except where the request to the
origin could not be sent.
-/
import SecureProxy.Destination

namespace SecureProxy

open Bytes Progs

/-! ## Outputs, path by path -/

/-- All a run can put on the client's socket. -/
inductive OneResponse : List Output → Prop
  | silent : OneResponse []
  | own (r : ProxyResponse) (calls : List WriteCall) : OneResponse [.response r calls]
  | relayed (src : RelaySource) (calls : List WriteCall) : OneResponse (calls.map (.relayed src))
  | tunnel (calls written : List WriteCall) : OneResponse (.response .established calls :: written.map .tunnelled)

section

variable {ok : (q : Query) → q.Answer → Prop} {g : Globals} {env : ClientEnv} {requestId : UInt64} {t : Trace}
  {o o' : Outcome} {url : ParsedUrl}

theorem Replies.outputs_eq (h : Replies env t) : ∃ r calls, OwnReply env r calls ∧ outputs t = [.response r calls] := by
  obtain ⟨r, calls, hown, rfl⟩ := h
  exact ⟨r, calls, hown, rfl⟩

theorem outputs_fetchEvents (url : ParsedUrl) (r : FetchResult) :
    outputs ((fetchEvents url r).map .said) = r.toClient.map (.relayed .origin) := by
  have hconn : ∀ es : List ConnEvent, (es.map ClientEvent.conn).filterMap ClientEvent.output = [] := fun es => by
    simp [List.filterMap_map, Function.comp_def, ClientEvent.output]
  have hwrite : ∀ cs : List WriteCall, (cs.map ClientEvent.toOrigin).filterMap ClientEvent.output = [] := fun cs => by
    simp [List.filterMap_map, Function.comp_def, ClientEvent.output]
  have hrelay : ∀ cs : List WriteCall, (cs.map (ClientEvent.relay .origin)).filterMap ClientEvent.output =
      cs.map (.relayed .origin) := fun cs => by
    simp [List.filterMap_map, Function.comp_def, ClientEvent.output]
  have hclose : (r.originFd.toList.map fun fd => ClientEvent.conn (.close fd)).filterMap ClientEvent.output = [] := by
    simp [List.filterMap_map, Function.comp_def, ClientEvent.output]
  rw [outputs_map_said, fetchEvents]
  simp only [List.cons_append, List.filterMap_cons, List.filterMap_append, hconn, hwrite, hrelay, hclose,
    List.filterMap_nil, ClientEvent.output, List.nil_append, List.append_nil]

theorem outputs_tunnel (es : List TunnelEvent) (fd : Option Fd) :
    ∃ written : List WriteCall,
      outputs ((es.map ClientEvent.tunnel ++ fd.toList.map fun fd => ClientEvent.conn (.close fd)).map .said) =
        written.map .tunnelled := by
  induction es with
  | nil => exact ⟨[], by cases fd <;> rfl⟩
  | cons e es ih =>
    obtain ⟨written, hw⟩ := ih
    rw [List.map_cons, List.cons_append, List.map_cons, outputs_said, hw]
    cases e with
    | received src chunk => exact ⟨written, rfl⟩
    | shutdownWrite dst => exact ⟨written, rfl⟩
    | written dst call =>
      cases dst with
      | client => exact ⟨call :: written, rfl⟩
      | origin => exact ⟨written, rfl⟩

theorem runs_openTunnel {fd : Option Fd} (h : Runs ok (openTunnel g env fd o) t o') : OneResponse (outputs t) := by
  simp only [openTunnel, runs_bind_iff, runs_tell_iff] at h
  obtain ⟨t₁, -, t₂, rfl, h, rfl⟩ := h
  have hclose : outputs ((fd.toList.map fun fd => ClientEvent.conn (.close fd)).map .said) = [] := by
    cases fd <;> rfl
  split at h
  · simp only [runs_bind_iff, runs_tells_iff, runs_pure_iff] at h
    obtain ⟨t₃, -, t₄, rfl, ⟨rfl, -⟩, rfl⟩ := h
    rw [outputs_append, outputs_append, hclose]
    exact .own _ _
  · simp only [runs_bind_iff, runs_tells_iff, runs_pure_iff] at h
    obtain ⟨t₃, -, t₄, rfl, ⟨rfl, -⟩, rfl⟩ := h
    obtain ⟨written, hw⟩ := outputs_tunnel _ fd
    rw [outputs_append, outputs_append, hw, outputs_nil, List.append_nil]
    exact .tunnel _ written

theorem runs_connectOrigin {target : ParsedConnect} (h : Runs ok (connectOrigin g env requestId target o) t o') :
    OneResponse (outputs t) := by
  simp only [connectOrigin, runs_bind_iff, runs_tells_iff] at h
  obtain ⟨t₁, -, t₂, rfl, h, rfl⟩ := h
  have hquiet : outputs ((ClientEvent.originConnect target.host target.port ::
      (originConnect g.allowPrivate env.connect target.host target.port).trace.map .conn).map .said) = [] := by
    rw [outputs_map_said, List.filterMap_cons, List.filterMap_map]
    simp [Function.comp_def, ClientEvent.output]
  rw [outputs_append, hquiet, List.nil_append]
  split at h
  · obtain ⟨r, calls, -, hr⟩ := (runs_block_replies h).outputs_eq
    rw [hr]
    exact .own r calls
  · split at h
    · obtain ⟨r, calls, -, hr⟩ := (runs_badGateway h).outputs_eq
      rw [hr]
      exact .own r calls
    · exact runs_openTunnel h

theorem Stored.outputs_eq {key : Option (List Byte)} {r : FetchResult} (h : Stored key r t) : outputs t = [] := by
  cases h <;> rfl

/-- After a fetch the proxy speaks only if the origin was never heard. -/
theorem FetchRun.outputs_cases {key : Option (List Byte)} (h : FetchRun g env url key t) :
    (∃ r calls, OwnReply env r calls ∧ outputs t = [.response r calls] ∧
      (fetchAndRelay g.allowPrivate env.fetch url (captureLimit key)).Quiet) ∨
    (outputs t = (fetchAndRelay g.allowPrivate env.fetch url (captureLimit key)).toClient.map (.relayed .origin) ∧
      ¬ (fetchAndRelay g.allowPrivate env.fetch url (captureLimit key)).Quiet) := by
  obtain ⟨t₁, t₂, rfl, hstore, ⟨hquiet, hreply⟩ | ⟨hloud, rfl⟩⟩ := h
  · obtain ⟨r, calls, hown, hr⟩ := hreply.outputs_eq
    refine .inl ⟨r, calls, hown, ?_, hquiet⟩
    rw [outputs_append, outputs_append, outputs_fetchEvents, hstore.outputs_eq, hr, fetchAndRelay_quiet hquiet]
    rfl
  · refine .inr ⟨?_, hloud⟩
    rw [outputs_append, outputs_append, outputs_fetchEvents, hstore.outputs_eq, outputs_nil, List.append_nil,
      List.append_nil]

theorem FetchRun.oneResponse {key : Option (List Byte)} (h : FetchRun g env url key t) : OneResponse (outputs t) := by
  rcases h.outputs_cases with ⟨r, calls, -, hr, -⟩ | ⟨hr, -⟩ <;> rw [hr]
  · exact .own r calls
  · exact .relayed .origin _

theorem outputs_cached (calls : List WriteCall) :
    outputs ((calls.map (ClientEvent.relay .cached)).map .said) = calls.map (.relayed .cached) := by
  rw [outputs_map_said, List.filterMap_map]
  simp [Function.comp_def, ClientEvent.output]

theorem PlainRun.oneResponse (h : PlainRun g env url t) : OneResponse (outputs t) := by
  cases h with
  | uncached on t hf => exact hf.oneResponse
  | hit key data hkey =>
    rw [outputs_asked, outputs_asked, outputs_cached]
    exact .relayed .cached _
  | miss key t hkey hf => exact hf.oneResponse

theorem runs_serveClient_oneResponse (h : Runs ok (serveClient g env requestId) t o) : OneResponse (outputs t) := by
  have heq := serveClient_eq g env requestId
  cases hreq : readRequest env.client with
  | none =>
    rw [hreq] at heq
    rcases heq.runs h with rfl | ⟨status, bytes, calls, rfl⟩
    · exact .silent
    · exact .own _ _
  | some req =>
    rw [hreq] at heq
    rw [show serveClient g env requestId = _ from heq] at h
    rcases runs_serveRequest h with ⟨-, rfl⟩ | ⟨-, hg⟩
    · exact .own _ _
    · cases hg with
      | policy _ t₁ _ _ hask heq =>
        rw [heq, outputs_append, hask.outputs_eq]
        exact .own _ _
      | reputation t₁ _ _ hask heq =>
        rw [heq, outputs_append, hask.outputs_eq]
        exact .own _ _
      | cleared t₁ t₂ o₁ _ _ hask hrun heq =>
        rw [heq, outputs_append, hask.outputs_eq, List.nil_append]
        cases req with
        | plain url => exact (runs_servePlain hrun).oneResponse
        | connect target => exact runs_connectOrigin hrun

end

/-! ## Never two responses -/

def Output.isResponse : Output → Bool
  | .response .. => true
  | _ => false

def Output.isRelayed : Output → Bool
  | .relayed .. => true
  | _ => false

/-- What a client may see on its socket, in order. -/
structure SingleResponse (out : List Output) : Prop where
  /-- At most one response of the proxy's own. -/
  once : out.countP Output.isResponse ≤ 1
  /-- None after a byte of an origin's or a cached response. -/
  notAfterRelay : ∀ before r calls after, out = before ++ .response r calls :: after →
    ∀ x ∈ before, x.isRelayed = false
  /-- After 200 Connection Established only tunnelled bytes. -/
  established : ∀ before calls after, out = before ++ .response .established calls :: after →
    ∀ x ∈ after, ∃ call, x = .tunnelled call

theorem countP_map_eq_zero {α : Type} {f : α → Output} (hf : ∀ a, (f a).isResponse = false) (l : List α) :
    (l.map f).countP Output.isResponse = 0 := by
  simp [List.countP_eq_zero, hf]

/-- A list without responses is no place for one. -/
theorem not_append_response {α : Type} {f : α → Output} (hf : ∀ a, (f a).isResponse = false) {l : List α}
    {before after : List Output} {r : ProxyResponse} {calls : List WriteCall} :
    l.map f ≠ before ++ .response r calls :: after := by
  intro h
  have hmem : Output.response r calls ∈ l.map f := h ▸ by simp
  obtain ⟨a, -, ha⟩ := List.mem_map.1 hmem
  have := hf a
  rw [ha] at this
  cases this

theorem OneResponse.singleResponse {out : List Output} (h : OneResponse out) : SingleResponse out := by
  have htun : ∀ a : WriteCall, (Output.tunnelled a).isResponse = false := fun _ => rfl
  cases h with
  | silent => exact ⟨by simp, by simp, by simp⟩
  | own r calls =>
    have hone : ∀ before r' calls' after, [Output.response r calls] = before ++ .response r' calls' :: after →
        before = [] ∧ after = [] := by
      intro before r' calls' after heq
      cases before with
      | nil => exact ⟨rfl, (List.cons.inj heq).2.symm⟩
      | cons x xs => simp at heq
    refine ⟨by simp [Output.isResponse], ?_, ?_⟩
    · intro before r' calls' after heq
      simp [(hone _ _ _ _ heq).1]
    · intro before calls' after heq
      simp [(hone _ _ _ _ heq).2]
  | relayed src calls =>
    have hrel : ∀ a : WriteCall, (Output.relayed src a).isResponse = false := fun _ => rfl
    exact ⟨by rw [countP_map_eq_zero hrel]; exact Nat.zero_le _, fun _ _ _ _ heq => absurd heq (not_append_response hrel),
      fun _ _ _ heq => absurd heq (not_append_response hrel)⟩
  | tunnel calls written =>
    have hfirst : ∀ before r' calls' after, Output.response .established calls :: written.map Output.tunnelled =
        before ++ .response r' calls' :: after → before = [] ∧ after = written.map .tunnelled := by
      intro before r' calls' after heq
      cases before with
      | nil => exact ⟨rfl, (List.cons.inj heq).2.symm⟩
      | cons x xs => exact absurd (List.cons.inj heq).2 (not_append_response htun)
    refine ⟨?_, ?_, ?_⟩
    · rw [List.countP_cons, countP_map_eq_zero htun]
      simp [Output.isResponse]
    · intro before r' calls' after heq
      simp [(hfirst _ _ _ _ heq).1]
    · intro before calls' after heq x hx
      rw [(hfirst _ _ _ _ heq).2] at hx
      obtain ⟨call, -, rfl⟩ := List.mem_map.1 hx
      exact ⟨call, rfl⟩

/-- **A client never gets two responses**, whatever the sockets, the resolver
and the shared state do. -/
theorem handleClient_singleResponse {g : Globals} {env : ClientEnv} {t : Trace} {u : Unit}
    (h : Runs (fun _ _ => True) (handleClient g (some env)) t u) : SingleResponse (outputs t) := by
  obtain ⟨requestId, t₁, o, hrun, rfl⟩ := runs_handleClient h
  rw [outputs_wholeRun]
  exact (runs_serveClient_oneResponse hrun).singleResponse

/-- A response that breaks off after its first chunk. -/
theorem handleClient_singleResponse_broken :
    let env := originEnv (bytes "http://example.com/\n") [] [.data ⟨bytes "HTTP/1.0 200", by decide, by decide⟩, .err]
    let t := (runWith (offAnswers .zero) (handleClient {} (some env))).1
    outputs t = [.relayed .origin ⟨bytes "HTTP/1.0 200", 12⟩] ∧ SingleResponse (outputs t) :=
  ⟨by decide +kernel, handleClient_singleResponse (runs_runWith (fun _ => trivial) _)⟩

/-! ## An origin that fails before its first byte -/

/-- The calls made on the client's socket. -/
def Output.calls : Output → List WriteCall
  | .response _ calls => calls
  | .relayed _ call => [call]
  | .tunnelled call => [call]

/-- The client has got one response of the proxy's own: all of it, if each
call took what it was offered. -/
def Answered (out : List Output) : Prop :=
  ∃ r calls, out = [.response r calls] ∧ (r.status = 403 ∨ r.status = 502 ∨ r.status = 504) ∧
    ((∀ c ∈ calls, c.accepted = c.offered.length) → acceptedBytes calls = r.text)

/-- While the client is there and takes what is written, a run that relayed
no byte of an origin and found nothing in the cache has answered it. -/
def AnswersForOrigin (t : Trace) : Prop :=
  (∀ x ∈ outputs t, ∀ c ∈ x.calls, 0 < c.accepted) →
  (∀ src c, .relayed src c ∈ outputs t → c.accepted = 0) →
  (∀ key data, .asked (.cacheLookup key) (some data) ∉ t) → Answered (outputs t)

/-- The origin takes the connection, but not the request. -/
structure RequestLost (g : Globals) (p : Policy) (env : ClientEnv) (url : ParsedUrl) (t : Trace) : Prop where
  permitted : Permitted g p (.plain url) t
  uncached : ∀ key data, .asked (.cacheLookup key) (some data) ∉ t
  connected : (originConnect g.allowPrivate env.fetch.conn url.host url.port).status = .ok
  lost : (sendAll (originRequest url) env.fetch.requestWrites).rc = none

theorem OwnReply.answered {env : ClientEnv} {r : ProxyResponse} {calls : List WriteCall} (h : OwnReply env r calls) :
    Answered [.response r calls] := by
  refine ⟨r, calls, rfl, h.status, fun hwhole => ?_⟩
  rcases h.calls with rfl | rfl
  · rw [sendAll_whole h.nonempty hwhole]
    simp [acceptedBytes]
  · have hcall : sendOnce r.text env.writes = ⟨r.text, (sendOnce r.text env.writes).accepted⟩ := by
      unfold sendOnce
      split <;> rfl
    have := hwhole _ (List.mem_singleton.2 rfl)
    rw [hcall] at this ⊢
    simp only at this
    simp [acceptedBytes, this]

section

variable {g : Globals} {p : Policy} {env : ClientEnv} {url : ParsedUrl} {key : Option (List Byte)}

/-- A fetch that is not quiet has relayed a byte, or has lost its request. -/
theorem fetchAndRelay_loud {limit : Nat} (h : ¬ (fetchAndRelay g.allowPrivate env.fetch url limit).Quiet) :
    (fetchAndRelay g.allowPrivate env.fetch url limit).toClient ≠ [] ∨
      (originConnect g.allowPrivate env.fetch.conn url.host url.port).status = .ok ∧
        (sendAll (originRequest url) env.fetch.requestWrites).rc = none := by
  cases fetchAndRelay_case g.allowPrivate env.fetch url limit with
  | connect hne hst =>
    have := originConnect_status g.allowPrivate env.fetch.conn url.host url.port
    simp only [List.mem_cons, List.not_mem_nil, or_false] at this
    refine absurd ?_ h
    rw [FetchResult.Quiet, hst]
    tauto
  | request hok hrc => exact .inr ⟨hok, hrc⟩
  | relay ended st _ _ hloop hst hstats hcl _ =>
    refine .inl fun hnil => ?_
    rw [hcl] at hnil
    by_cases hend : ended = .sendFailed
    · obtain ⟨c, hc, -⟩ := relayLoop_sendFailed (by rw [hloop]; exact hend)
      rw [hloop, hnil] at hc
      cases hc
    · have hinv := relayLoop_start hloop hend
      have hzero : st.stats.bytesRelayed = 0 := by rw [hinv.relayed, hinv.quiet.2 hnil]; rfl
      refine h ?_
      rw [FetchResult.Quiet, hstats, settle_bytesRelayed, hst, hzero]
      cases ended with
      | sendFailed => exact absurd rfl hend
      | eof => simp [relayStatus]
      | timeout => simp [relayStatus]
      | recvFailed => simp [relayStatus]

/-- A lost request leaves the fetch with nothing to show and nothing to say. -/
theorem fetchAndRelay_lost (limit : Nat)
    (hok : (originConnect g.allowPrivate env.fetch.conn url.host url.port).status = .ok)
    (hrc : (sendAll (originRequest url) env.fetch.requestWrites).rc = none) :
    ¬ (fetchAndRelay g.allowPrivate env.fetch url limit).Quiet ∧
      (fetchAndRelay g.allowPrivate env.fetch url limit).toClient = [] := by
  cases fetchAndRelay_case g.allowPrivate env.fetch url limit with
  | connect hne => exact absurd hok hne
  | request _ _ hst hcl => exact ⟨by simp [FetchResult.Quiet, hst], hcl⟩
  | relay _ _ _ hsome => exact absurd hrc hsome

variable {t : Trace}

theorem FetchRun.not_hit (h : FetchRun g env url key t) (k : List Byte) (data : Option (List Byte)) :
    .asked (.cacheLookup k) data ∉ t := by
  obtain ⟨t₁, t₂, rfl, hstore, hreply⟩ := h
  have hevents : .asked (.cacheLookup k) data ∉
      ((fetchEvents url (fetchAndRelay g.allowPrivate env.fetch url (captureLimit key))).map .said : Trace) := by simp
  have hst : .asked (.cacheLookup k) data ∉ t₁ := by cases hstore <;> simp
  have hre : .asked (.cacheLookup k) data ∉ t₂ := by
    rcases hreply with ⟨-, r, calls, -, rfl⟩ | ⟨-, rfl⟩ <;> simp
  simp only [List.mem_append, not_or]
  exact ⟨⟨hevents, hst⟩, hre⟩

/-- A fetch answers for the origin unless its request was lost. -/
theorem FetchRun.answered (h : FetchRun g env url key t)
    (hnot : ¬ ((originConnect g.allowPrivate env.fetch.conn url.host url.port).status = .ok ∧
      (sendAll (originRequest url) env.fetch.requestWrites).rc = none))
    (hup : ∀ x ∈ outputs t, ∀ c ∈ x.calls, 0 < c.accepted)
    (hsilent : ∀ src c, .relayed src c ∈ outputs t → c.accepted = 0) : Answered (outputs t) := by
  rcases h.outputs_cases with ⟨r, calls, hown, hr, -⟩ | ⟨hr, hloud⟩
  · rw [hr]
    exact hown.answered
  · rcases fetchAndRelay_loud hloud with hne | hlost
    · obtain ⟨c, hc⟩ := List.exists_mem_of_ne_nil _ hne
      have hmem : .relayed .origin c ∈ outputs t := hr ▸ List.mem_map_of_mem hc
      have h0 := hsilent _ _ hmem
      have h1 := hup _ hmem c (by simp [Output.calls])
      omega
    · exact absurd hlost hnot

theorem FetchRun.lost (h : FetchRun g env url key t)
    (hok : (originConnect g.allowPrivate env.fetch.conn url.host url.port).status = .ok)
    (hrc : (sendAll (originRequest url) env.fetch.requestWrites).rc = none) : outputs t = [] := by
  obtain ⟨hloud, hnil⟩ := fetchAndRelay_lost (captureLimit key) hok hrc
  rcases h.outputs_cases with ⟨-, -, -, -, hquiet⟩ | ⟨hr, -⟩
  · exact absurd hquiet hloud
  · rw [hr, hnil]
    rfl

theorem not_answered_nil : ¬ Answered [] := by
  intro h
  obtain ⟨r, calls, heq, -⟩ := h
  cases heq

/-- What the rest of the trace adds to a fetch changes neither side. -/
theorem FetchRun.answers_iff {t' : Trace} (h : FetchRun g env url key t) (hout : outputs t' = outputs t)
    (hhit : ∀ k data, .asked (.cacheLookup k) (some data) ∉ t') (hperm : Permitted g p (.plain url) t') :
    AnswersForOrigin t' ↔ ¬ RequestLost g p env url t' := by
  constructor
  · intro hans hlost
    have hnil := h.lost hlost.connected hlost.lost
    rw [AnswersForOrigin, hout, hnil] at hans
    exact not_answered_nil (hans (by simp) (by simp) hlost.uncached)
  · intro hnot
    rw [AnswersForOrigin, hout]
    exact fun hup hsilent _ => h.answered (fun hlost => hnot ⟨hperm, hhit, hlost.1, hlost.2⟩) hup hsilent

/-- **An origin that fails before its first byte is answered for, unless it
takes the connection and not the request.** -/
theorem handleClient_answers_iff {u : Unit} (hreq : readRequest env.client = some (.plain url))
    (h : Runs (PolicyAnswers p) (handleClient g (some env)) t u) :
    AnswersForOrigin t ↔ ¬ RequestLost g p env url t := by
  obtain ⟨requestId, t₁, o, hrun, rfl⟩ := runs_handleClient h
  have heq := serveClient_eq g env requestId
  rw [hreq] at heq
  rw [show serveClient g env requestId = _ from heq] at hrun
  -- a block page answers, and a blocked request is not lost
  have hblocked : ∀ reason t₂, ChecksOnly t₂ → t₁ = t₂ ++ [.said (blockEvent env requestId reason)] →
      AnswersForOrigin (wholeRun requestId env.durationMs o t₁) := by
    rintro reason t₂ hchecks rfl _ _ _
    rw [outputs_wholeRun, outputs_append, hchecks.outputs_eq]
    exact (blockEvent_ownReply env requestId reason).answered
  rcases runs_serveRequest hrun with ⟨hport, -⟩ | ⟨hport, hg⟩
  · exact absurd (fun _ => Request.noConfusion) hport
  · cases hg with
    | policy d t₂ hok hne hchecks heq =>
      refine iff_of_true (hblocked _ _ hchecks heq) fun hlost => hne ?_
      exact (show d = _ from hok).trans hlost.permitted.policy
    | reputation t₂ hok hbad hchecks heq =>
      refine iff_of_true (hblocked _ _ hchecks heq) fun hlost => hlost.permitted.reputation ?_
      rw [foundMalicious_wholeRun, heq]
      obtain ⟨r, hr, hv⟩ := hbad
      exact ⟨r, List.mem_append_left _ hr, hv⟩
    | cleared t₂ t₃ o₁ hok hgood hchecks hplain heq =>
      subst heq
      have hperm : Permitted g p (.plain url) (t₂ ++ t₃) := by
        obtain ⟨-, hquery⟩ := hplain.all (serveAllowed_staysOn g env requestId (.plain url) o₁).all
        exact ⟨hport, Eq.symm hok, (FoundMalicious.append fun r hr => hquery _ _ hr).not.2 hgood⟩
      have hout : outputs (wholeRun requestId env.durationMs o (t₂ ++ t₃)) = outputs t₃ := by
        rw [outputs_wholeRun, outputs_append, hchecks.outputs_eq, List.nil_append]
      have hhit : ∀ k data, (∀ e ∈ t₃, e ≠ .asked (.cacheLookup k) (some data)) →
          .asked (.cacheLookup k) (some data) ∉ wholeRun requestId env.durationMs o (t₂ ++ t₃) := by
        intro k data hnot hmem
        simp only [wholeRun, List.cons_append, List.mem_cons, List.mem_append, reduceCtorEq, List.not_mem_nil, or_false,
          false_or, Obs.asked.injEq, false_and] at hmem
        rcases hmem with hmem | hmem
        · exact hchecks.not_asked rfl _ hmem
        · exact hnot _ hmem rfl
      have hrun := runs_servePlain hplain
      cases hrun with
      | uncached on t₄ hf =>
        refine hf.answers_iff (by rw [hout, outputs_asked]) (fun k data => hhit k data ?_) hperm.wholeRun
        rintro e he rfl
        simp only [List.mem_cons, Obs.asked.injEq, reduceCtorEq, false_and, false_or] at he
        exact hf.not_hit _ _ he
      | hit key data hkey =>
        have hmem : .asked (.cacheLookup key) (some data) ∈ wholeRun requestId env.durationMs o (t₂ ++
            .asked .cacheIsEnabled true :: .asked (.cacheLookup key) (some data) ::
              ((sendAll data env.writes).calls.map (.relay .cached)).map .said) := by simp [wholeRun]
        exact iff_of_true (fun _ _ hnone => absurd hmem (hnone _ _)) fun hlost => hlost.uncached _ _ hmem
      | miss key t₄ hkey hf =>
        refine hf.answers_iff (by rw [hout, outputs_asked, outputs_asked]) (fun k data => hhit k data ?_)
          hperm.wholeRun
        rintro e he rfl
        simp only [List.mem_cons, Obs.asked.injEq, Query.cacheLookup.injEq, reduceCtorEq, false_and, false_or] at he
        rcases he with ⟨rfl, he⟩ | he
        · simp at he
        · exact hf.not_hit _ _ he

/-- A silent origin is answered for. -/
theorem handleClient_answers_silent :
    let env := originEnv (bytes "http://example.com/\n") [] []
    let t := (runWith (offAnswers .zero) (handleClient {} (some env))).1
    AnswersForOrigin t ↔ ¬ RequestLost {} .zero env ⟨bytes "example.com", 80, bytes "/"⟩ t :=
  handleClient_answers_iff (by decide +kernel) (runs_runWith (offAnswers_ok _) _)

/-- An origin that resets the connection before the request is sent: the
client's connection is closed without a byte. -/
theorem handleClient_request_lost :
    let env := originEnv (bytes "http://example.com/\n") [.err] []
    let t := (runWith (offAnswers .zero) (handleClient {} (some env))).1
    readRequest env.client = some (.plain ⟨bytes "example.com", 80, bytes "/"⟩) ∧
      Runs (PolicyAnswers .zero) (handleClient {} (some env)) t () ∧ outputs t = [] ∧ ¬ AnswersForOrigin t := by
  intro env t
  have hout : outputs t = [] := by decide +kernel
  have hhit : ∀ e ∈ t, (match e with | .asked (.cacheLookup _) _ => true | _ => false) = false := by decide +kernel
  have hreq : readRequest env.client = some (.plain ⟨bytes "example.com", 80, bytes "/"⟩) := by decide +kernel
  have hrun : ∀ u, Runs (PolicyAnswers .zero) (handleClient {} (some env)) t u := fun u => by
    rw [Subsingleton.elim u (runWith (offAnswers .zero) (handleClient {} (some env))).2]
    exact runs_runWith (offAnswers_ok _) _
  refine ⟨hreq, hrun (), hout, fun hans => ?_⟩
  rw [AnswersForOrigin, hout] at hans
  exact not_answered_nil (hans (by simp) (by simp) fun key data hm => by cases hhit _ hm)

end

end SecureProxy
