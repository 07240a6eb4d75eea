/-
The client program and the worker that serves it, over one connection.

What the worker reads is a beginning of what the client wrote, and what the
client reads is what the worker's calls put out. The bytes in the client's file
can then be traced through both programs to where they came from: the origin or
the cached copy of the very URL that was asked for, or a response of the
proxy's own.
-/
import SecureProxy.AuditRecord
import SecureProxy.Client
import SecureProxy.OriginSocket
import SecureProxy.Proxy
import SecureProxy.RequestReading

namespace SecureProxy

open Bytes Progs

/-! ## The connection -/

/-- The answers of `recv` on a connection over which `sent` comes: the bytes in
order, and the end of the stream after all of them. A list that runs out stands
for a connection that was closed. -/
inductive Delivers {cap : Nat} : List Byte → List (RecvOutcome cap) → Prop
  | nil : Delivers [] []
  | eof (rs : List (RecvOutcome cap)) : Delivers [] (.eof :: rs)
  | data {sent : List Byte} {rs : List (RecvOutcome cap)} (c : Chunk cap) : Delivers sent rs →
      Delivers (c.bytes ++ sent) (.data c :: rs)
  | failed {o : RecvOutcome cap} (sent : List Byte) (rs : List (RecvOutcome cap)) : o = .eagain ∨ o = .eintr ∨ o = .err →
      Delivers sent (o :: rs)

theorem Delivers.receiveLoop {sent : List Byte} {rs : List (RecvOutcome readChunkSize)} (h : Delivers sent rs) :
    (receiveLoop rs).1.flatten <+: sent ∧ ((receiveLoop rs).2 = true → (receiveLoop rs).1.flatten = sent) := by
  induction h with
  | nil => exact ⟨List.nil_prefix, fun _ => rfl⟩
  | eof rs => exact ⟨List.nil_prefix, fun _ => rfl⟩
  | data c _ ih =>
    rw [SecureProxy.receiveLoop, List.flatten_cons]
    exact ⟨(List.prefix_append_right_inj _).2 ih.1, fun hok => by rw [ih.2 hok]⟩
  | failed sent rs ho =>
    rcases ho with rfl | rfl | rfl <;> exact ⟨List.nil_prefix, nofun⟩

/-- The bytes the calls on a client's socket took, in order. -/
def told (t : Trace) : List Byte := acceptedBytes ((outputs t).flatMap Output.calls)

def MainEvent.sent : MainEvent → List Byte
  | .sendAll _ calls => acceptedBytes calls
  | .fopen _ | .connect _ | .fwrite _ | .fclose | .close | .saved .. => []

/-- The bytes the client's calls took. -/
def sentToProxy (events : List MainEvent) : List Byte := events.flatMap MainEvent.sent

/-! ## The client -/

/-- A run of the client on a connection that brings it `sent`. -/
structure Retrieves (url : Arg) (sent : List Byte) (r : MainResult) : Prop where
  request : sentToProxy r.events <+: requestText url
  file : written r.events <+: sent
  whole : r.exitCode = 0 → written r.events = sent ∧ ∃ filename, .saved filename sent.length ∈ r.events

section

variable {env : MainEnv} {url : Arg} {sent : List Byte} {r : MainResult}

theorem Retrieves.nothing {code : Nat} (hcode : code ≠ 0) {events : List MainEvent} (hsent : sentToProxy events = [])
    (hfile : written events = []) : Retrieves url sent ⟨code, events⟩ where
  request := hsent ▸ List.nil_prefix
  file := hfile ▸ List.nil_prefix
  whole := fun h => absurd h hcode

theorem sentToProxy_chunks (calls : List WriteCall) (passed : List Byte) (chunks : List (List Byte)) :
    sentToProxy (.sendAll passed calls :: chunks.map .fwrite ++ [.fclose, .close]) = acceptedBytes calls := by
  have hchunks : (chunks.map MainEvent.fwrite).flatMap MainEvent.sent = [] := by
    rw [List.flatMap_map]
    exact List.flatMap_eq_nil_iff.2 fun _ _ => rfl
  rw [sentToProxy, List.flatMap_append, List.flatMap_cons, hchunks]
  exact (List.append_nil _).trans (List.append_nil _)

theorem written_got (calls : List WriteCall) (passed : List Byte) (chunks : List (List Byte)) :
    written (.sendAll passed calls :: chunks.map .fwrite ++ [.fclose, .close]) = chunks.flatten := by
  rw [written, List.flatMap_append]
  exact (List.append_nil _).trans (written_chunks chunks)

theorem exchange_retrieves (hlen : url.text.length ≤ maxUrlLen) (hdown : Delivers sent env.recvs) (filename : List Byte) :
    Retrieves url sent (exchange env url filename) := by
  obtain ⟨hpre, hall⟩ := hdown.receiveLoop
  have hpassed : passedToSendAll env.stack url = some (requestText url) := (passedToSendAll_of_le hlen env.stack).2
  have haccepted := (sendAll_accepted (requestText url) env.writes).1
  have hsent := sentToProxy_chunks (sendAll (requestText url) env.writes).calls (requestText url) (receiveLoop env.recvs).1
  have hwritten := written_got (sendAll (requestText url) env.writes).calls (requestText url) (receiveLoop env.recvs).1
  rw [exchange, hpassed]
  dsimp only
  by_cases hrc : (sendAll (requestText url) env.writes).rc = none
  · rw [if_pos hrc]
    exact ⟨sentToProxy_chunks _ (requestText url) [] ▸ haccepted, List.nil_prefix, fun h => absurd h Nat.one_ne_zero⟩
  · rw [if_neg hrc]
    by_cases hok : (receiveLoop env.recvs).2 = true
    · rw [if_pos hok]
      refine ⟨?_, ?_, fun _ => ⟨?_, filename, ?_⟩⟩
      · rw [sentToProxy, List.flatMap_append]
        exact (List.append_nil (sentToProxy _)).symm ▸ hsent ▸ haccepted
      · rw [written, List.flatMap_append]
        exact (List.append_nil (written _)).symm ▸ hwritten ▸ hpre
      · rw [written, List.flatMap_append]
        exact (List.append_nil (written _)).trans (hwritten.trans (hall hok))
      · rw [hall hok]
        exact List.mem_append_right _ (List.mem_singleton_self _)
    · rw [if_neg hok]
      exact ⟨hsent ▸ haccepted, hwritten ▸ hpre, fun h => absurd h Nat.one_ne_zero⟩

theorem Retrieves.cons (h : Retrieves url sent r) {e : MainEvent}
    (he : (∃ filename, e = .fopen filename) ∨ ∃ port, e = .connect port) :
    Retrieves url sent { r with events := e :: r.events } := by
  have hsent : sentToProxy (e :: r.events) = sentToProxy r.events := by
    rcases he with ⟨_, rfl⟩ | ⟨_, rfl⟩ <;> rfl
  have hwritten : written (e :: r.events) = written r.events := by
    rcases he with ⟨_, rfl⟩ | ⟨_, rfl⟩ <;> rfl
  refine ⟨hsent ▸ h.request, hwritten ▸ h.file, fun hcode => ?_⟩
  obtain ⟨hfile, filename, hsaved⟩ := h.whole hcode
  exact ⟨hwritten.trans hfile, filename, List.mem_cons_of_mem _ hsaved⟩

theorem openAndExchange_retrieves (hlen : url.text.length ≤ maxUrlLen) (hdown : Delivers sent env.recvs)
    (filename : List Byte) : Retrieves url sent (openAndExchange env url filename) := by
  unfold openAndExchange connectAndExchange
  dsimp only
  split
  · exact .nothing (by decide) rfl rfl
  · refine Retrieves.cons ?_ (.inl ⟨filename, rfl⟩)
    split
    · exact .nothing (by decide) rfl rfl
    · split
      · exact .nothing (by decide) rfl rfl
      · exact (exchange_retrieves hlen hdown filename).cons (.inr ⟨_, rfl⟩)

theorem clientMain_retrieves (hlen : url.text.length ≤ maxUrlLen) (hdown : Delivers sent env.recvs) (rest : List Arg) :
    Retrieves url sent (clientMain env (url :: rest)) := by
  match rest with
  | [] => exact openAndExchange_retrieves hlen hdown _
  | [file] =>
    show Retrieves url sent (if file.text.length ≥ filenameSize then ⟨2, []⟩ else _)
    split
    · exact .nothing (by decide) rfl rfl
    · exact openAndExchange_retrieves hlen hdown _
  | _ :: _ :: _ => exact .nothing (by decide) rfl rfl

end

/-! ## The request that arrives -/

section

variable {client rest : List (RecvOutcome 1)} {url : Arg} {text : List Byte}

/-- The line is the whole of what the client sends. -/
theorem HandsOver.requested (h : HandsOver client text rest) (hlf : ch '\n' ∉ url.text)
    (hup : received client <+: requestText url) :
    text = url.text.rdropWhile (· == ch '\r') ∧ received rest = [] := by
  obtain ⟨line, hsplit, hline⟩ := h.taken
  obtain ⟨more, hmore⟩ := hup
  have hall : beforeLf (received client) ++ (ch '\n' :: (received rest ++ more)) = url.text ++ [ch '\n'] := by
    calc beforeLf (received client) ++ (ch '\n' :: (received rest ++ more))
        = received line ++ received rest ++ more := by rw [hline]; simp
      _ = received client ++ more := by rw [← received_append, ← hsplit]
      _ = url.text ++ [ch '\n'] := hmore
  have hurl : beforeLf (received client) = url.text ∧ received rest ++ more = [] := by
    rcases List.append_eq_append_iff.1 hall with ⟨s, hs, heq⟩ | ⟨s, hs, heq⟩
    · cases s with
      | nil => exact ⟨by simpa using hs.symm, by simpa using heq⟩
      | cons b s =>
        obtain ⟨rfl, -⟩ := List.cons.inj heq
        exact absurd (hs ▸ List.mem_append_right _ List.mem_cons_self) hlf
    · cases s with
      | nil => exact ⟨by simpa using hs, by simpa using heq.symm⟩
      | cons b s => simp at heq
  exact ⟨h.text_eq.trans (by rw [hurl.1]), (List.append_eq_nil_iff.1 hurl.2).1⟩

/-- A worker that hears this client reads its URL or no request: a CONNECT has
no blank line after it. -/
theorem readRequest_requested (hlf : ch '\n' ∉ url.text) (hup : received client <+: requestText url) {req : Request}
    (hreq : readRequest client = some req) :
    ∃ parsed, req = .plain parsed ∧ parseHttpUrl (url.text.rdropWhile (· == ch '\r')) = .ok parsed := by
  unfold readRequest at hreq
  rcases hread : readRequestLine client with ⟨status, line, rest⟩
  rw [hread] at hreq
  dsimp only at hreq
  split at hreq
  · rename_i hok
    subst hok
    obtain ⟨htext, hrest⟩ := (readRequestLine_ok hread).requested hlf hup
    rw [htext] at hreq
    split at hreq
    · split at hreq
      · split at hreq
        · rename_i hheaders
          obtain ⟨headers, htakes⟩ := consumeRequestHeaders_ok (Prod.ext hheaders rfl)
          obtain ⟨init, crs, hblank, -⟩ := htakes.blank
          rw [htakes.split, received_append, hblank] at hrest
          simp at hrest
        · cases hreq
      · cases hreq
    · split at hreq
      · rename_i parsed hparsed
        exact ⟨parsed, (Option.some.inj hreq).symm, hparsed⟩
      · cases hreq
  · cases hreq

end

/-! ## What a worker says on a plain request -/

/-- A response is sent from its first byte on, and what a fetch received is
the origin's stream. -/
def ClientEvent.OfPlain (env : ClientEnv) (url : Option ParsedUrl) : ClientEvent → Prop
  | .respond r calls => acceptedBytes calls <+: r.text ∧ r ≠ .established
  | .fetched url' s got => url = some url' ∧ got <+: (originStream env.fetch.chunks).1 ∧
      (s = .ok → wholeStream env.fetch.chunks = some got)
  | _ => True

theorem relayLoop_received {limit : Nat} {realloc : Nat → Bool} (chunks : List (RecvOutcome relayChunkSize)) :
    ∀ st : RelayState, (relayLoop limit realloc chunks st).2.received <+: st.received ++ (originStream chunks).1 := by
  induction chunks with
  | nil => exact fun st => List.prefix_append ..
  | cons o rest ih =>
    intro st
    cases o with
    | data chunk =>
      simp only [relayLoop, originStream]
      rw [← List.append_assoc]
      split
      · exact List.prefix_append ..
      · exact ih _
    | eof => exact List.prefix_append ..
    | eagain => exact List.prefix_append ..
    | eintr => exact List.prefix_append ..
    | err => exact List.prefix_append ..

theorem fetchAndRelay_prefix (allowPrivate : Bool) (env : FetchEnv) (url : ParsedUrl) (limit : Nat) :
    (fetchAndRelay allowPrivate env url limit).received <+: (originStream env.chunks).1 := by
  unfold fetchAndRelay
  dsimp only
  split
  · split
    · exact List.nil_prefix
    · exact relayLoop_received env.chunks { writes := env.clientWrites }
  · exact List.nil_prefix

section

variable {ok : (q : Query) → q.Answer → Prop} {g : Globals} {env : ClientEnv} {requestId : UInt64} {t : Trace}
  {o : Outcome} {url : ParsedUrl}

theorem OwnReply.ofPlain {r : ProxyResponse} {calls : List WriteCall} (h : OwnReply env r calls) (url : Option ParsedUrl) :
    (ClientEvent.respond r calls).OfPlain env url := by
  refine ⟨?_, ?_⟩
  · rcases h.calls with rfl | rfl
    · exact (sendAll_accepted ..).1
    · exact sendOnce_accepted ..
  · rintro rfl
    rcases h.status with h | h | h <;> cases h

theorem FetchRun.ofPlain {key : Option (List Byte)} (h : FetchRun g env url key t) {e : ClientEvent} (hm : .said e ∈ t) :
    e.OfPlain env (some url) := by
  obtain ⟨t₁, t₂, rfl, hstored, hreply⟩ := h
  rcases List.mem_append.1 hm with hm | hm
  · rcases List.mem_append.1 hm with hm | hm
    · simp only [fetchEvents, List.mem_map, List.mem_append, List.mem_cons, List.not_mem_nil, or_false, Obs.said.injEq,
        exists_eq_right] at hm
      rcases hm with ((((rfl | ⟨_, -, rfl⟩) | ⟨_, -, rfl⟩) | ⟨_, -, rfl⟩) | ⟨_, -, rfl⟩) | rfl
      · trivial
      · trivial
      · trivial
      · trivial
      · trivial
      · exact ⟨rfl, fetchAndRelay_prefix .., fetchAndRelay_stream⟩
    · cases hstored with
      | nothing => cases hm
      | store => simp at hm
  · rcases hreply with ⟨-, r, calls, hown, rfl⟩ | ⟨-, rfl⟩
    · simp only [List.mem_singleton, Obs.said.injEq] at hm
      subst hm
      exact hown.ofPlain _
    · cases hm

theorem PlainRun.ofPlain (h : PlainRun g env url t) {e : ClientEvent} (hm : .said e ∈ t) : e.OfPlain env (some url) := by
  cases h with
  | uncached on t hf => exact hf.ofPlain (by simpa using hm)
  | hit key data _ =>
    simp only [List.mem_cons, reduceCtorEq, false_or, List.mem_map, Obs.said.injEq, exists_eq_right] at hm
    obtain ⟨call, -, rfl⟩ := hm
    trivial
  | miss key t _ hf => exact hf.ofPlain (by simpa using hm)

/-- All of it, where the request is a plain one if there is one at all. -/
theorem runs_serveClient_ofPlain (hplain : ∀ req, readRequest env.client = some req → ∃ url, req = .plain url)
    (h : Runs ok (serveClient g env requestId) t o) {e : ClientEvent} (hm : .said e ∈ t) :
    ∃ url, (∀ parsed, url = some parsed → readRequest env.client = some (.plain parsed)) ∧ e.OfPlain env url := by
  obtain ⟨t₁, t₂, rfl, hask, hend⟩ := runs_serveClient_ending h
  rcases List.mem_append.1 hm with hm | hm
  · exact absurd hm (hask.not_said e)
  · cases hend with
    | nothing => cases hm
    | page r calls hr hsent =>
      rw [List.mem_singleton, Obs.said.injEq] at hm
      subst hm
      exact ⟨none, nofun, hsent, hr⟩
    | plain url hreq hrun => exact ⟨some url, fun parsed hp => by rw [hreq, Option.some.inj hp], hrun.ofPlain hm⟩
    | connect target o o' hreq hrun =>
      obtain ⟨url, hurl⟩ := hplain _ hreq
      cases hurl

theorem runs_handleClient_ofPlain {u : Unit} (hplain : ∀ req, readRequest env.client = some req → ∃ url, req = .plain url)
    (h : Runs ok (handleClient g (some env)) t u) {e : ClientEvent} (hm : .said e ∈ t) :
    ∃ url, (∀ parsed, url = some parsed → readRequest env.client = some (.plain parsed)) ∧ e.OfPlain env url := by
  obtain ⟨requestId, t₁, o, hrun, rfl⟩ := runs_handleClient h
  rcases said_wholeRun requestId env.durationMs o t₁ hm with hm | rfl | rfl | rfl
  · exact runs_serveClient_ofPlain hplain hrun hm
  · exact ⟨none, nofun, trivial⟩
  · exact ⟨none, nofun, trivial⟩
  · exact ⟨none, nofun, trivial⟩

theorem ClientEvent.output_response {e : ClientEvent} {r : ProxyResponse} {calls : List WriteCall}
    (h : e.output = some (.response r calls)) : e = .respond r calls := by
  unfold ClientEvent.output at h
  split at h
  · obtain ⟨rfl, rfl⟩ := Output.response.inj (Option.some.inj h)
    rfl
  · cases h
  · cases h
  · cases h

theorem mem_outputs_response {r : ProxyResponse} {calls : List WriteCall} (h : .response r calls ∈ outputs t) :
    .said (.respond r calls) ∈ t := by
  obtain ⟨x, hx, hout⟩ := List.mem_filterMap.1 h
  cases x with
  | asked q a => cases hout
  | said e => exact ClientEvent.output_response hout ▸ hx

theorem told_response {r : ProxyResponse} {calls : List WriteCall} (h : outputs t = [.response r calls]) :
    told t = acceptedBytes calls := by
  simp [told, h, Output.calls]

theorem told_relayed {src : RelaySource} {calls : List WriteCall} (h : outputs t = calls.map (.relayed src)) :
    told t = acceptedBytes calls := by
  have hcalls : (calls.map (Output.relayed src)).flatMap Output.calls = calls := by
    rw [List.flatMap_map]
    exact List.flatMap_singleton' calls
  rw [told, h, hcalls]

end

/-! ## From the origin to the file -/

/-- Where the bytes that a run has told its client come from, beside what its
record says of them. -/
inductive Source (p : Policy) (url : List Byte) (env : ClientEnv) (t : Trace) (record : LogRecord) : Prop
  | silent : record.decision = "client_closed" → told t = [] → Source p url env t record
  | error (text : List Byte) (calls : List WriteCall) : errorWord record.status = some record.decision →
      outputs t = [.response (.error record.status text) calls] → told t <+: text → Source p url env t record
  | blocked (reason : DecisionReason) : reason ≠ .none → record.decision = blockedLabel reason →
      told t <+: (blockPage record.requestId reason).text → Source p url env t record
  | cached (parsed : ParsedUrl) (key data : List Byte) : parseHttpUrl url = .ok parsed →
      policyCheckHost p parsed.host = .allow → cacheKeyOf parsed = some key → .asked (.cacheLookup key) (some data) ∈ t →
      record.decision = "allowed" → record.byteCount = data.length → told t <+: data → Source p url env t record
  | fetched (parsed : ParsedUrl) : parseHttpUrl url = .ok parsed → policyCheckHost p parsed.host = .allow →
      record.decision = "allowed" → record.byteCount = (told t).length →
      wholeStream env.fetch.chunks = some (told t) → Source p url env t record
  | broken (parsed : ParsedUrl) : parseHttpUrl url = .ok parsed → policyCheckHost p parsed.host = .allow →
      record.decision = "relay_error" → record.byteCount ≤ (told t).length →
      told t <+: (originStream env.fetch.chunks).1 → Source p url env t record

section

variable {p : Policy} {g : Globals} {env : ClientEnv} {t : Trace} {u : Unit} {url : List Byte}

theorem runs_source {record : LogRecord} (hplain : ∀ req, readRequest env.client = some req →
      ∃ parsed, req = .plain parsed ∧ parseHttpUrl url = .ok parsed)
    (h : Runs (PolicyAnswers p) (handleClient g (some env)) t u) (hr : Recorded env t record) :
    Source p url env t record := by
  have hsays : ∀ e, .said e ∈ t →
      ∃ asked, (∀ parsed, asked = some parsed → readRequest env.client = some (.plain parsed)) ∧ e.OfPlain env asked :=
    fun e hm => runs_handleClient_ofPlain (fun req hreq => (hplain req hreq).imp fun _ hp => hp.1) h hm
  have hown : ∀ r calls, .response r calls ∈ outputs t → acceptedBytes calls <+: r.text ∧ r ≠ .established := by
    intro r calls hm
    obtain ⟨asked, -, hof⟩ := hsays _ (mem_outputs_response hm)
    exact hof
  have hserved : ∀ parsed s got, .said (.fetched parsed s got) ∈ t → parseHttpUrl url = .ok parsed ∧
      policyCheckHost p parsed.host = .allow ∧ got <+: (originStream env.fetch.chunks).1 ∧
      (s = .ok → wholeStream env.fetch.chunks = some got) := by
    intro parsed s got hm
    obtain ⟨asked, hasked, rfl, hgot, hall⟩ := hsays _ hm
    have hreq := hasked parsed rfl
    obtain ⟨_, heq, hparsed⟩ := hplain _ hreq
    cases heq
    obtain ⟨req, _, _, _, hread, hperm, -⟩ := runs_handleClient_permitted h hm rfl
    rw [hreq] at hread
    cases hread
    exact ⟨hparsed, hperm.policy, hgot, hall⟩
  have htold := hr.told
  generalize hdecision : record.decision = decision, hstatus : record.status = status, hn : record.byteCount = n at htold
  cases htold with
  | closed hout => exact .silent hdecision (by simp [told, hout, acceptedBytes])
  | error hword hout =>
    refine .error _ _ (by rw [hdecision, hstatus]; exact hword) (by rw [hstatus]; exact hout) ?_
    rw [told_response hout]
    exact (hown _ _ (by rw [hout]; exact List.mem_singleton_self _)).1
  | blocked hreason hout =>
    refine .blocked _ hreason hdecision ?_
    rw [told_response hout]
    exact (hown _ _ (by rw [hout]; exact List.mem_singleton_self _)).1
  | cutOff hout => exact absurd rfl (hown _ _ (by rw [hout]; exact List.mem_singleton_self _)).2
  | tunnelled hout => exact absurd rfl (hown _ _ (by rw [hout]; exact List.mem_cons_self)).2
  | @cached key data calls hm hout hacc =>
    obtain ⟨req, _, _, _, hread, hperm, -⟩ := runs_handleClient_permitted h hm rfl
    obtain ⟨parsed, rfl, hparsed⟩ := hplain req hread
    have hkey : cacheKeyOf parsed = some key := by
      obtain ⟨a, c, rfl⟩ := List.append_of_mem hm
      obtain ⟨⟨_, hreq, hkey⟩, -⟩ := (runs_handleClient_cacheUse h).of_hit
      rw [hread] at hreq
      cases hreq
      exact hkey
    exact .cached parsed key data hparsed hperm.policy hkey hm hdecision hn (told_relayed hout ▸ hacc)
  | @relayed parsed got calls status hm hout hacc =>
    obtain ⟨hparsed, hallow, -, hall⟩ := hserved _ _ _ hm
    have htold : told t = got := (told_relayed hout).trans hacc
    exact .fetched parsed hparsed hallow hdecision (by rw [hn, htold]) (by rw [htold]; exact hall rfl)
  | @broken parsed s got calls status n hm hs hout hacc hle =>
    obtain ⟨hparsed, hallow, hgot, -⟩ := hserved _ _ _ hm
    refine .broken parsed hparsed hallow hdecision ?_ (told_relayed hout ▸ hacc.trans hgot)
    rw [hn, told_relayed hout]
    exact hle

end

end SecureProxy
