/-
The responses of the proxy's own. There are the error pages, the block pages
and the line that opens a tunnel, and nothing of the request or of the origin
stands in any of them: which error page it is says all there is to say, and a
block page has its reason and the request ID. Each is one whole HTTP response
that tells the truth about its own length.

What a handler may say is followed through `handle_client` once
(`serveAllowed_speaks`), for any set of responses that has those pages.
-/
import SecureProxy.AcceptLoopFacts
import SecureProxy.BlockPage

namespace SecureProxy

open Bytes Lines Progs

/-! ## The pages -/

/-- What `send_error_response` is called with. -/
structure ErrorPage where
  status : Nat
  text : String
  body : List Byte
  deriving DecidableEq, Repr

def ErrorPage.response (p : ErrorPage) : ProxyResponse := .error p.status (errorResponse p.status p.text p.body)

/-- The page for a request line that cannot be parsed. -/
def badRequestPage (ps : ParseStatus) : ErrorPage :=
  ⟨400, "Bad Request", bodyLine "400 Bad Request: " (parseStatusToString ps)⟩

def badGatewayPage (status : FetchStatus) : ErrorPage :=
  ⟨502, "Bad Gateway", bodyLine "502 Bad Gateway: " (fetchStatusToString status)⟩

/-- The pages of the calls whose texts are fixed. -/
def fixedPages : List ErrorPage :=
  [⟨413, "Payload Too Large", bytes "413 Payload Too Large: Request URL exceeds 2048B.\n"⟩,
    ⟨408, "Request Timeout", bytes "408 Request Timeout: No complete request line received.\n"⟩,
    ⟨400, "Bad Request", bytes "400 Bad Request: Request contains forbidden control characters.\n"⟩,
    ⟨408, "Request Timeout", bytes "408 Request Timeout: CONNECT headers incomplete.\n"⟩,
    ⟨400, "Bad Request", bytes "400 Bad Request: CONNECT headers too large.\n"⟩,
    ⟨504, "Gateway Timeout", bytes "504 Gateway Timeout: The origin did not respond in time.\n"⟩,
    ⟨502, "Bad Gateway", bytes "502 Bad Gateway: The origin sent no response.\n"⟩,
    ⟨503, "Service Unavailable", bytes "503 Service Unavailable: Maximum concurrent connections reached.\n"⟩]

/-- One of the error pages. -/
inductive IsErrorPage : ErrorPage → Prop
  | fixed {page : ErrorPage} : page ∈ fixedPages → IsErrorPage page
  | badRequest (ps : ParseStatus) : IsErrorPage (badRequestPage ps)
  | badGateway (status : FetchStatus) : IsErrorPage (badGatewayPage status)

/-- A response of the proxy's own, where `drew` says which request IDs were drawn. -/
inductive OwnPage (drew : UInt64 → Prop) : ProxyResponse → Prop
  | error {page : ErrorPage} : IsErrorPage page → OwnPage drew page.response
  | block {id : UInt64} {reason : DecisionReason} : drew id → reason ≠ .none → OwnPage drew (blockPage id reason)
  | established : OwnPage drew .established

/-! ## One whole response -/

/-- A status line, a header up to its first empty line, and a body as long as
the header says; one that opens a tunnel has no body. -/
structure WholeReply (r : ProxyResponse) (raw : List (List Byte)) (body : List Byte) : Prop where
  block : HeaderBlock r.text raw body
  statusLine : ∃ text, raw.head? = some (bytes "HTTP/1.1 " ++ decimal r.status ++ ch ' ' :: text)
  length : r = .established ∧ body = [] ∨ fieldValues "content-length:" raw = [decimal body.length]

/-- The lines of the header of `send_error_response`. -/
def errorHeaderLines (status : Nat) (text : String) (bodyLen : Nat) : List (List Byte) :=
  [bytes "HTTP/1.1 " ++ decimal status ++ ch ' ' :: (bytes text ++ [ch '\r']), bytes "Content-Type: text/plain\r",
    bytes "Content-Length: " ++ decimal bodyLen ++ [ch '\r'], bytes "Connection: close\r", [ch '\r']]

section

variable (status : Nat) (text : String) (bodyLen : Nat)

theorem render_errorHeaderLines : render (ch '\n') (errorHeaderLines status text bodyLen) =
    bytes "HTTP/1.1 " ++ decimal status ++ ch ' ' :: bytes text ++
      bytes "\r\nContent-Type: text/plain\r\nContent-Length: " ++ decimal bodyLen ++
      bytes "\r\nConnection: close\r\n\r\n" := by
  have htype : bytes "\r\nContent-Type: text/plain\r\nContent-Length: " =
      [ch '\r', ch '\n'] ++ bytes "Content-Type: text/plain\r" ++ [ch '\n'] ++ bytes "Content-Length: " := by
    repeat rw [bytes_ofList]
    rfl
  have hclose : bytes "\r\nConnection: close\r\n\r\n" =
      [ch '\r', ch '\n'] ++ bytes "Connection: close\r" ++ [ch '\n'] ++ [ch '\r', ch '\n'] := by
    repeat rw [bytes_ofList]
    rfl
  simp only [errorHeaderLines, render_cons, render_nil, htype, hclose, List.append_assoc, List.cons_append,
    List.nil_append]

theorem errorHeaderLines_block (htext : ch '\n' ∉ bytes text) :
    IsBlock (ch '\n') isEmptyLine (errorHeaderLines status text bodyLen) := by
  have hdigits := notMem_decimal (b := ch '\n') (by decide) status
  have hfirst : ch '\n' ∉ bytes "HTTP/1.1 " ++ decimal status ++ ch ' ' :: (bytes text ++ [ch '\r']) := by
    have hopen : ch '\n' ∉ bytes "HTTP/1.1 " := by decide
    have hspace : ch '\n' ≠ ch ' ' := by decide
    have hcr : ch '\n' ≠ ch '\r' := by decide
    simp [hopen, hdigits, htext, hspace, hcr]
  have hfull : isEmptyLine (bytes "HTTP/1.1 " ++ decimal status ++ ch ' ' :: (bytes text ++ [ch '\r'])) = false := by
    rw [Bool.eq_false_iff]
    intro hempty
    have hopen : (bytes "HTTP/1.1 ").length = 9 := by decide
    rcases isEmptyLine_iff.1 hempty with h | h
    · have := congrArg List.length h
      simp only [List.length_append, hopen, List.length_nil] at this
      omega
    · have := congrArg List.length h
      simp only [List.length_append, hopen, List.length_singleton] at this
      omega
  obtain ⟨hlen, hlen'⟩ := numberLine_plain (bytes "Content-Length: ") (by decide) (by decide) bodyLen
  exact .cons hfirst hfull <| .cons (by decide) (by decide) <| .cons hlen hlen' <| .cons (by decide) (by decide) <|
    .last (by decide) (by decide)

theorem fieldValues_errorHeader :
    fieldValues "content-length:" (errorHeaderLines status text bodyLen) = [decimal bodyLen] := by
  have hraw : fieldLines (errorHeaderLines status text bodyLen) =
      [bytes "Content-Type: text/plain", bytes "Content-Length:" ++ ch ' ' :: decimal bodyLen,
        bytes "Connection: close", []] := by
    rw [← (numberLine_eq bodyLen).1]
    simp only [fieldLines, errorHeaderLines, List.map_cons, List.map_nil, List.tail_cons, dropCr_concat]
    repeat rw [bytes_ofList]
    rfl
  exact @fieldValues_number _ _ [_] _ _ _ hraw (by decide) (by decide) (by decide) (by decide)

end

/-- The text fits the buffer of `send_error_response`, and the reason phrase
is on one line. -/
structure ErrorPage.Fits (p : ErrorPage) : Prop where
  text : ch '\n' ∉ bytes p.text
  room : (render (ch '\n') (errorHeaderLines p.status p.text p.body.length) ++ p.body).length <
    maxHostLen + maxPathLen + 256

theorem ErrorPage.Fits.whole {p : ErrorPage} (h : p.Fits) :
    WholeReply p.response (errorHeaderLines p.status p.text p.body.length) p.body where
  block := by
    refine ⟨errorHeaderLines_block _ _ _ h.text, ?_⟩
    have hroom := h.room
    rw [render_errorHeaderLines] at hroom ⊢
    exact if_pos hroom
  statusLine := ⟨bytes p.text ++ [ch '\r'], rfl⟩
  length := .inr (fieldValues_errorHeader _ _ _)

/-- Short texts fit. -/
theorem ErrorPage.fits_of_short {p : ErrorPage} (hstatus : p.status < 1000) (htext : ch '\n' ∉ bytes p.text)
    (hlen : (bytes p.text).length ≤ 40) (hbody : p.body.length ≤ 255) : p.Fits := by
  refine ⟨htext, ?_⟩
  have hdigits : (decimal p.status).length ≤ 3 := length_decimal_le (by decide) hstatus
  have hdigits' : (decimal p.body.length).length ≤ 3 := length_decimal_le (by decide) (by omega)
  have hopen : (bytes "HTTP/1.1 ").length = 9 := by decide
  have htype : (bytes "\r\nContent-Type: text/plain\r\nContent-Length: ").length = 44 := by decide +kernel
  have hclose : (bytes "\r\nConnection: close\r\n\r\n").length = 23 := by decide +kernel
  rw [render_errorHeaderLines]
  simp only [List.length_append, List.length_cons, hopen, htype, hclose, maxHostLen, maxPathLen]
  omega

theorem length_bodyLine_le (what detail : String) : (bodyLine what detail).length ≤ 255 := List.length_take_le _ _

/-- No error page is cut by its buffers. -/
theorem IsErrorPage.fits {page : ErrorPage} (h : IsErrorPage page) : page.Fits := by
  cases h with
  | fixed hmem =>
    have hall : ∀ p ∈ fixedPages, (p.status < 1000 ∧ ch '\n' ∉ bytes p.text) ∧
        (bytes p.text).length ≤ 40 ∧ p.body.length ≤ 255 := by
      simp only [fixedPages, List.forall_mem_cons]
      repeat rw [bytes_ofList]
      decide +kernel
    obtain ⟨⟨hstatus, htext⟩, hlen, hbody⟩ := hall page hmem
    exact ErrorPage.fits_of_short hstatus htext hlen hbody
  | badRequest ps =>
    have htext : ch '\n' ∉ bytes "Bad Request" ∧ (bytes "Bad Request").length ≤ 40 := by decide
    exact ErrorPage.fits_of_short (show 400 < 1000 by omega) htext.1 htext.2 (length_bodyLine_le _ _)
  | badGateway status =>
    have htext : ch '\n' ∉ bytes "Bad Gateway" ∧ (bytes "Bad Gateway").length ≤ 40 := by decide
    exact ErrorPage.fits_of_short (show 502 < 1000 by omega) htext.1 htext.2 (length_bodyLine_le _ _)

theorem blockPage_whole (id : UInt64) (reason : DecisionReason) :
    WholeReply (blockPage id reason) (blockHeaderLines id (blockBody id reason).length) (blockBody id reason) where
  block := blockPage_headerBlock id reason
  statusLine := by
    have hline : bytes "HTTP/1.1 403 Forbidden\r" = bytes "HTTP/1.1 " ++ decimal 403 ++ ch ' ' :: bytes "Forbidden\r" := by
      decide +kernel
    exact ⟨bytes "Forbidden\r", congrArg some hline⟩
  length := .inr (fieldValues_contentLength id _)

theorem established_whole :
    WholeReply .established [bytes "HTTP/1.1 200 Connection Established\r", [ch '\r']] [] where
  block := ⟨.cons (by decide) (by decide) (.last (by decide) (by decide)), by decide +kernel⟩
  statusLine := ⟨bytes "Connection Established\r", by decide +kernel⟩
  length := .inl ⟨rfl, rfl⟩

theorem OwnPage.whole {drew : UInt64 → Prop} {r : ProxyResponse} (h : OwnPage drew r) : ∃ raw body, WholeReply r raw body := by
  cases h with
  | error hpage => exact ⟨_, _, hpage.fits.whole⟩
  | block _ _ => exact ⟨_, _, blockPage_whole _ _⟩
  | established => exact ⟨_, _, established_whole⟩

/-! ## What a worker says -/

/-- The handler sends no response of its own but such as `R` has. -/
structure Speaks {α : Type} (R : ProxyResponse → Prop) (p : Handler α) : Prop where
  spec : p.Spec (fun _ => True) (fun e => ∀ r calls, e = .respond r calls → R r) fun _ => True

namespace Speaks

variable {α β : Type} {R : ProxyResponse → Prop}

theorem pure {a : α} : Speaks R (Pure.pure a) := ⟨spec_pure trivial⟩

theorem bind {p : Handler α} {f : α → Handler β} (hp : Speaks R p) (hf : ∀ a, Speaks R (f a)) : Speaks R (p >>= f) :=
  ⟨hp.spec.bind fun a _ => (hf a).spec⟩

theorem ask {q : Query} : Speaks R q.ask := ⟨spec_query trivial⟩

theorem respond {r : ProxyResponse} {calls : List WriteCall} (h : R r) : Speaks R (.tell (.respond r calls)) :=
  ⟨spec_tell fun _ _ heq => by cases heq; exact h⟩

theorem tell {e : ClientEvent} (h : ∀ r calls, e ≠ .respond r calls) : Speaks R (.tell e) :=
  ⟨spec_tell fun r calls heq => absurd heq (h r calls)⟩

theorem tells {es : List ClientEvent} (h : ∀ e ∈ es, ∀ r calls, e ≠ .respond r calls) : Speaks R (.tells es) :=
  ⟨spec_tells fun e he r calls heq => absurd heq (h e he r calls)⟩

/-- What a run of it says. -/
theorem run {p : Handler α} (hp : Speaks R p) {ok : (q : Query) → q.Answer → Prop} {t : Trace} {a : α} (h : Runs ok p t a)
    {r : ProxyResponse} {calls : List WriteCall} (hm : .said (.respond r calls) ∈ t) : R r :=
  (h.all hp.spec.all).1 _ hm r calls rfl

end Speaks

section

variable {R : ProxyResponse → Prop} {g : Globals} {env : ClientEnv} {requestId : UInt64} {o : Outcome}

theorem error_speaks {status : Nat} {text : String} {body : List Byte}
    (h : R (.error status (errorResponse status text body))) :
    Speaks R (do sendErrorResponse env status text body; return o) :=
  .bind (.respond h) fun _ => .pure

theorem fixed_speaks (h : ∀ page, IsErrorPage page → R page.response) {status : Nat} {text : String} {body : List Byte}
    (hpage : ⟨status, text, body⟩ ∈ fixedPages) : Speaks R (do sendErrorResponse env status text body; return o) :=
  error_speaks (h _ (.fixed hpage))

theorem block_speaks {reason : DecisionReason} (h : R (blockPage requestId reason)) :
    Speaks R (block env requestId reason o) := by
  unfold block
  rw [sendBlockPage_eq]
  exact .bind (.respond h) fun _ => .pure

/-- An unsafe address weighs more than any verdict. -/
theorem networkUnsafe_reason (policyDenied portDenied checked : Bool) (verdict : ReputationVerdict) :
    (decisionEvaluate ⟨policyDenied, true, portDenied, checked, verdict⟩).reason ≠ .none ∧
      (decisionEvaluate ⟨policyDenied, true, portDenied, checked, verdict⟩).reason ≠ .reputation := by
  cases policyDenied <;> cases portDenied <;> cases checked <;> cases verdict <;> decide

/-- The pages of a request that has passed the checks. -/
structure PastChecks (requestId : UInt64) (R : ProxyResponse → Prop) : Prop where
  error : ∀ page, IsErrorPage page → R page.response
  blocked : ∀ reason, reason ≠ .none → reason ≠ .reputation → R (blockPage requestId reason)
  established : R .established

theorem blockNetwork_speaks (h : PastChecks requestId R) : Speaks R (blockNetwork env requestId o) :=
  block_speaks (h.blocked _ (networkUnsafe_reason _ _ _ _).1 (networkUnsafe_reason _ _ _ _).2)

theorem badGateway_speaks (h : PastChecks requestId R) {status : FetchStatus} : Speaks R (badGateway env status o) :=
  error_speaks (h.error _ (.badGateway status))

theorem openTunnel_speaks (h : PastChecks requestId R) {fd : Option Fd} : Speaks R (openTunnel g env fd o) := by
  unfold openTunnel
  refine .bind (.respond h.established) fun _ => ?_
  split
  · exact .bind (.tells (by simp)) fun _ => .pure
  · exact .bind (.tells (by simp [or_imp, forall_and])) fun _ => .pure

theorem connectOrigin_speaks (h : PastChecks requestId R) {target : ParsedConnect} :
    Speaks R (connectOrigin g env requestId target o) := by
  unfold connectOrigin
  refine .bind (.tells (by simp)) fun _ => ?_
  split
  · exact blockNetwork_speaks h
  · split
    · exact badGateway_speaks h
    · exact openTunnel_speaks h

theorem replyFetched_speaks (h : PastChecks requestId R) {r : FetchResult} :
    Speaks R (replyFetched env requestId r o) := by
  unfold replyFetched
  cases r.status with
  | ok | errSend => exact .pure
  | errDns | errConnect => exact badGateway_speaks h
  | errUnsafeAddress => exact blockNetwork_speaks h
  | errRecv =>
    dsimp only
    split
    · exact fixed_speaks h.error (by simp [fixedPages])
    · exact .pure
  | errTimeout =>
    dsimp only
    split
    · exact fixed_speaks h.error (by simp [fixedPages])
    · exact .pure

theorem storeFetched_speaks {key : Option (List Byte)} {r : FetchResult} : Speaks R (storeFetched key r o) := by
  unfold storeFetched
  split
  · exact .bind .ask fun _ => .pure
  · exact .pure

theorem fetchPlain_speaks (h : PastChecks requestId R) {url : ParsedUrl} {key : Option (List Byte)} :
    Speaks R (fetchPlain g env requestId url key o) := by
  unfold fetchPlain
  refine .bind (.tells ?_) fun _ => .bind storeFetched_speaks fun _ => replyFetched_speaks h
  simp [fetchEvents, or_imp, forall_and]

theorem servePlain_speaks (h : PastChecks requestId R) {url : ParsedUrl} :
    Speaks R (servePlain g env requestId url o) := by
  unfold servePlain
  refine .bind .ask fun _ => ?_
  split
  · exact fetchPlain_speaks h
  · split
    · exact fetchPlain_speaks h
    · refine .bind .ask fun hit => ?_
      cases hit with
      | none => exact fetchPlain_speaks h
      | some data => exact .bind (.tells (by simp)) fun _ => .pure

/-- What is said once a request has passed the checks. -/
theorem serveAllowed_speaks (h : PastChecks requestId R) {req : Request} :
    Speaks R (serveAllowed g env requestId req o) := by
  cases req with
  | plain url => exact servePlain_speaks h
  | connect target => exact connectOrigin_speaks h

end

/-! ## From the request line on -/

section

variable {g : Globals} {env : ClientEnv} {requestId : UInt64} {o : Outcome}

/-- The pages under a request ID. -/
abbrev PagesOf (requestId : UInt64) : ProxyResponse → Prop := OwnPage (· = requestId)

theorem fixed_pagesOf {status : Nat} {text : String} {body : List Byte} (hpage : ⟨status, text, body⟩ ∈ fixedPages) :
    Speaks (PagesOf requestId) (do sendErrorResponse env status text body; return o) :=
  fixed_speaks (fun _ h => .error h) hpage

theorem pagesOf_pastChecks : PastChecks requestId (PagesOf requestId) :=
  ⟨fun _ h => .error h, fun _ h _ => .block rfl h, .established⟩

/-- What blocks has a reason. -/
theorem blocked_reason {sig : DecisionInputs} (h : (decisionEvaluate sig).action = .block) :
    (decisionEvaluate sig).reason ≠ .none := by
  rcases sig with ⟨p, u, d, c, v⟩
  revert h
  cases p <;> cases u <;> cases d <;> cases c <;> cases v <;> decide

theorem portDenied_reason (policyDenied networkUnsafe checked : Bool) (verdict : ReputationVerdict) :
    (decisionEvaluate ⟨policyDenied, networkUnsafe, true, checked, verdict⟩).reason ≠ .none := by
  cases policyDenied <;> cases networkUnsafe <;> cases checked <;> cases verdict <;> decide

theorem checkDestination_speaks {host : List Byte} {R : ProxyResponse → Prop} :
    Speaks R (checkDestination env host o) := by
  refine .bind .ask fun policy => ?_
  split
  · exact .pure
  · refine .bind .ask fun on => ?_
    split
    · exact .bind .ask fun _ => .pure
    · exact .pure

/-- A request that is checked, and then blocked or served. -/
theorem checked_speaks {host : List Byte} {next : Outcome → Handler Outcome}
    (hnext : ∀ o, Speaks (PagesOf requestId) (next o)) :
    Speaks (PagesOf requestId) (checkDestination env host o >>= fun o => unlessBlocked env requestId o (next o)) := by
  refine .bind checkDestination_speaks fun o => ?_
  unfold unlessBlocked
  split
  · rename_i hblock
    exact block_speaks (.block rfl (blocked_reason hblock))
  · exact hnext o

theorem handlePlain_speaks {line : List Byte} : Speaks (PagesOf requestId) (handlePlain g env requestId line) := by
  unfold handlePlain
  split
  · rename_i ps _
    exact error_speaks (.error (.badRequest ps))
  · exact checked_speaks fun _ => servePlain_speaks pagesOf_pastChecks

theorem connectTarget_speaks {target : ParsedConnect} :
    Speaks (PagesOf requestId) (connectTarget g env requestId target o) := by
  unfold connectTarget
  dsimp only
  split
  · exact block_speaks (.block rfl (portDenied_reason _ _ _ _))
  · exact checked_speaks fun _ => connectOrigin_speaks pagesOf_pastChecks

theorem handleConnect_speaks {line : List Byte} {rest : List (RecvOutcome 1)} :
    Speaks (PagesOf requestId) (handleConnect g env requestId line rest o) := by
  unfold handleConnect
  split
  · rename_i ps _
    exact error_speaks (.error (.badRequest ps))
  · dsimp only
    split
    · exact connectTarget_speaks
    · exact fixed_pagesOf (by simp [fixedPages])
    · exact fixed_pagesOf (by simp [fixedPages])
    all_goals exact .pure

theorem serveClient_speaks : Speaks (PagesOf requestId) (serveClient g env requestId) := by
  unfold serveClient
  obtain ⟨status, line, rest⟩ := readRequestLine env.client
  cases status with
  | tooLarge => exact fixed_pagesOf (by simp [fixedPages])
  | timeout => exact fixed_pagesOf (by simp [fixedPages])
  | badBytes => exact fixed_pagesOf (by simp [fixedPages])
  | closed | error => exact .pure
  | ok =>
    dsimp only
    split
    · exact handleConnect_speaks
    · exact handlePlain_speaks

end

/-! ## The connections -/

/-- The request IDs drawn in a connection's past. -/
def Drew (t : LoopTrace) (id : UInt64) : Prop := .asked (.client .nextRequestId) id ∈ t

theorem OwnPage.mono {drew drew' : UInt64 → Prop} {r : ProxyResponse} (h : OwnPage drew r) (hsub : ∀ id, drew id → drew' id) :
    OwnPage drew' r := by
  cases h with
  | error hpage => exact .error hpage
  | block hid hreason => exact .block (hsub _ hid) hreason
  | established => exact .established

/-- A connection responds only after `a`, with pages of the IDs drawn in it. -/
structure PagesAfter (a b : LoopTrace) : Prop where
  silent : ∀ r calls, .said (.client (.respond r calls)) ∉ a
  pages : ∀ r calls, .said (.client (.respond r calls)) ∈ b → OwnPage (Drew a) r

section

variable {ok : (q : LoopQuery) → q.Answer → Prop} {g : Globals} {env : ClientEnv} {t : LoopTrace} {u : Unit}

theorem PagesAfter.cons {a b : LoopTrace} (h : PagesAfter a b) {q : LoopQuery} (x : q.Answer) :
    PagesAfter (.asked q x :: a) b :=
  ⟨fun r calls hm => h.silent r calls (by simpa using hm),
    fun r calls hm => (h.pages r calls hm).mono fun _ hid => List.mem_cons_of_mem _ hid⟩

theorem refuseClient_pages (h : Runs ok (refuseClient env) t u) : PagesAfter [] t := by
  simp only [refuseClient, LoopQuery.ask, runs_bind_iff, runs_tell_iff, runs_query_iff] at h
  obtain ⟨t₁, u₁, t₂, hsend, ⟨t₃, requestId, t₄, ⟨-, rfl⟩, ⟨t₅, -, t₆, rfl, ⟨t₇, -, t₈, rfl, ⟨-, rfl⟩, rfl⟩, rfl⟩, rfl⟩,
    rfl⟩ := h
  obtain ⟨t₀, h₀, rfl⟩ := runs_ofClient hsend
  refine ⟨by simp, fun r calls hm => ?_⟩
  rw [runs_tell_iff.1 h₀] at hm
  simp only [List.map_cons, List.map_nil, clientObs, List.cons_append, List.nil_append, List.mem_cons, Obs.said.injEq,
    LoopEvent.client.injEq, ClientEvent.respond.injEq, reduceCtorEq, List.not_mem_nil, or_false] at hm
  rw [hm.1]
  have hpage : ⟨503, "Service Unavailable", bytes "503 Service Unavailable: Maximum concurrent connections reached.\n"⟩ ∈
      fixedPages := by simp [fixedPages]
  exact .error (.fixed hpage)

theorem abandonClient_pages {args : List LoopEvent} (hargs : ∀ r calls, .client (.respond r calls) ∉ args)
    (h : Runs ok (abandonClient args) t u) : PagesAfter [] t := by
  simp only [abandonClient, LoopQuery.ask, runs_bind_iff, runs_tell_iff, runs_tells_iff, runs_query_iff] at h
  obtain ⟨t₁, requestId, t₂, ⟨-, rfl⟩, ⟨t₃, -, t₄, rfl, ⟨t₅, -, t₆, rfl, ⟨t₇, -, t₈, rfl, ⟨t₉, -, t₁₀, ⟨-, rfl⟩,
    ⟨-, rfl⟩, rfl⟩, rfl⟩, rfl⟩, rfl⟩, rfl⟩ := h
  refine ⟨by simp, fun r calls hm => absurd hm ?_⟩
  simp [hargs r calls]

theorem handleClient_pages (h : Runs ok (ofClient (handleClient g (some env))) t u) :
    ∃ a b, t = a ++ b ∧ PagesAfter a b := by
  obtain ⟨t₀, h₀, rfl⟩ := runs_ofClient h
  obtain ⟨requestId, t₁, o, hrun, rfl⟩ := runs_handleClient h₀
  refine ⟨[.said (.client .freeArgs), .asked (.client .nextRequestId) requestId], _, rfl, by simp, fun r calls hm => ?_⟩
  have hm : .said (.respond r calls) ∈ t₁ := by
    obtain ⟨x, hx, heq⟩ := List.mem_map.1 hm
    cases x with
    | asked q a => cases heq
    | said e =>
      simp only [clientObs, Obs.said.injEq, LoopEvent.client.injEq] at heq
      subst heq
      simpa using hx
  exact (serveClient_speaks.run hrun hm).mono fun id hid => by simp [Drew, hid]

/-- The pages of a connection that is over. -/
theorem runs_acceptClient_pages (h : Runs ok (acceptClient g env) t u) : ∃ a b, t = a ++ b ∧ PagesAfter a b := by
  simp only [acceptClient, LoopQuery.ask, runs_bind_iff, runs_query_iff] at h
  obtain ⟨t₁, admitted, t₂, ⟨-, rfl⟩, h, rfl⟩ := h
  cases admitted with
  | false => exact ⟨[_], t₂, rfl, (refuseClient_pages h).cons _⟩
  | true =>
    simp only [if_true, startClient, LoopQuery.ask, runs_bind_iff, runs_query_iff] at h
    obtain ⟨t₃, args, t₄, ⟨-, rfl⟩, h, rfl⟩ := h
    cases args with
    | false => exact ⟨[_, _], t₄, rfl, ((abandonClient_pages (by simp) h).cons _).cons _⟩
    | true =>
      simp only [if_true, runs_bind_iff, runs_query_iff] at h
      obtain ⟨t₅, started, t₆, ⟨-, rfl⟩, h, rfl⟩ := h
      cases started with
      | false => exact ⟨[_, _, _], t₆, rfl, (((abandonClient_pages (by simp) h).cons _).cons _).cons _⟩
      | true =>
        obtain ⟨a, b, rfl, hpages⟩ := handleClient_pages h
        exact ⟨_ :: _ :: _ :: a, b, rfl, ((hpages.cons _).cons _).cons _⟩

end

/-- A past that has come to a response has drawn the ID the page shows. -/
theorem PagesAfter.begun {a b past rest : LoopTrace} (h : PagesAfter a b) (heq : past ++ rest = a ++ b) {r : ProxyResponse}
    {calls : List WriteCall} (hm : .said (.client (.respond r calls)) ∈ past) : OwnPage (Drew past) r := by
  have hpast : past <+: a ++ b := ⟨rest, heq⟩
  rcases List.prefix_or_prefix_of_prefix hpast (List.prefix_append a b) with hshort | ⟨c, rfl⟩
  · exact absurd (hshort.subset hm) (h.silent r calls)
  · rw [List.append_assoc, List.append_cancel_left_eq] at heq
    have hmb : .said (.client (.respond r calls)) ∈ b := by
      rw [← heq]
      rcases List.mem_append.1 hm with hm | hm
      · exact absurd hm (h.silent r calls)
      · exact List.mem_append_left _ hm
    exact (h.pages r calls hmb).mono fun _ hid => List.mem_append_left _ hid

/-- The response of the proxy's own that an event sends. -/
def ClientEvent.ownResponse : ClientEvent → Option ProxyResponse
  | .respond r _ => some r
  | .freeArgs | .relay .. | .originConnect .. | .conn _ | .toOrigin _ | .fetched .. | .tunnel _ | .log _
  | .drainAndClose => none

/-- The responses of the proxy's own that a connection was sent, in order. -/
def ownResponses (t : LoopTrace) : List ProxyResponse :=
  t.filterMap fun
    | .said (.client e) => e.ownResponse
    | .said .close | .asked .. => none

theorem mem_ownResponses {t : LoopTrace} {r : ProxyResponse} (h : r ∈ ownResponses t) :
    ∃ calls, .said (.client (.respond r calls)) ∈ t := by
  obtain ⟨x, hx, hr⟩ := List.mem_filterMap.1 h
  cases x with
  | asked q a => cases hr
  | said e =>
    cases e with
    | close => cases hr
    | client e =>
      cases e with
      | respond r' calls =>
        cases hr
        exact ⟨calls, hx⟩
      | freeArgs | relay | originConnect | conn | toOrigin | fetched | tunnel | log | drainAndClose => cases hr

/-- **What the proxy says itself.** In every state of the accept loop and its
workers, each response of its own that a connection was sent is one whole HTTP
response with the length its header gives. It is one of the fixed error pages,
the line that opens a tunnel, or a block page made from a reason and the
request ID drawn for that connection: nothing a client or an origin sent is in
it. -/
theorem acceptLoop_ownPages {g : Globals} {s₀ : ServerState} {P : LoopPool} (h : Pool.Reach (acceptLoop g) s₀ P) {i : Nat}
    {r : ProxyResponse} (hr : r ∈ ownResponses (past P.log i)) :
    OwnPage (Drew (past P.log i)) r ∧ ∃ raw body, WholeReply r raw body := by
  obtain ⟨calls, hm⟩ := mem_ownResponses hr
  obtain ⟨x, hx, rfl, -⟩ := mem_past hm
  have hi := h.sound.known x hx
  obtain ⟨t, u, hrun⟩ := (h.sound.leads x.worker _ (List.getElem?_eq_getElem hi)).completes (acceptLoop_ok g)
  obtain ⟨a, b, heq, hpages⟩ := runs_acceptClient_pages (g := g) hrun
  have hown := hpages.begun heq hm
  exact ⟨hown, hown.whole⟩

/-- A client asks for an impossible port, and its worker has come to the end. -/
def rejectedConnection : LoopPool :=
  let moves : List (Move ClientEnv Bool MainMove) :=
    [.outside .go, .start (idleEnv (bytes "http://a.example:0/\n"))] ++ List.replicate 20 (.turn 0 true)
  moves.foldl (Pool.move (acceptClient {}) loopChoice) ⟨{ policy := .zero }, [], []⟩

theorem acceptLoop_ownPages_rejected :
    ∃ r, ownResponses (past rejectedConnection.log 0) = [r] ∧ r.status = 400 ∧
      OwnPage (Drew (past rejectedConnection.log 0)) r ∧ ∃ raw body, WholeReply r raw body := by
  have hreach : Pool.Reach (acceptLoop {}) { policy := .zero } rejectedConnection :=
    Pool.Reach.schedule (loopChoice_within {}) .init _
  have hstatus : (ownResponses (past rejectedConnection.log 0)).map ProxyResponse.status = [400] := by decide +kernel
  obtain ⟨r, hr, hstatus⟩ := List.map_eq_singleton_iff.1 hstatus
  exact ⟨r, hr, hstatus, acceptLoop_ownPages hreach (by simp [hr])⟩

end SecureProxy
