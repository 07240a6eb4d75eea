/-
The record of a request, and the line the logger makes of it.
-/
import SecureProxy.AcceptLoopFacts
import SecureProxy.AuditPaths
import SecureProxy.LoggerHost

namespace SecureProxy

open Bytes Progs

/-! ## The record -/

def obsRecord : Obs Query.Answer ClientEvent → Option LogRecord
  | .said (.log r) => some r
  | _ => none

/-- What a run hands to the logger. -/
def records (t : Trace) : List LogRecord := t.filterMap obsRecord

/-- The tokens behind the fixed fields: the method, the reputation, the cache
and the risk, as far as there is something to say about each. -/
def auditTokens (rs : List (RecvOutcome 1)) (t : Trace) : List (List Byte) :=
  let n := (lineNoted rs).after t
  n.tokens ++ n.cacheState.toList.map bytes ++
    if (readRequest rs).isSome then [bytes "risk=" ++ decimal (decisionEvaluate n.sig).riskScore] else []

/-- Tokens the logger leaves as they are, all of which have room in the extras. -/
structure Tokens (tokens : List (List Byte)) (max : Nat) : Prop where
  plain : ∀ token ∈ tokens, token ≠ [] ∧ token.all isTokenByte = true
  room : (spaced tokens).length ≤ max

theorem Tokens.add {tokens : List (List Byte)} {token : List Byte} {m k : Nat} (h : Tokens tokens m)
    (htoken : token ≠ [] ∧ token.all isTokenByte = true) (hlen : token.length ≤ k) (hmax : m + k + 2 ≤ 96) :
    extrasAdd (spaced tokens) token = spaced (tokens ++ [token]) ∧ Tokens (tokens ++ [token]) (m + k + 1) := by
  have hroom := h.room
  have hsnoc := length_spaced_snoc_le tokens token
  refine ⟨extrasAdd_spaced (fun t ht => (h.plain t ht).1) (by omega), fun t ht => ?_, by omega⟩
  rcases List.mem_append.1 ht with ht | ht
  · exact h.plain t ht
  · rw [List.mem_singleton.1 ht]
    exact htoken

theorem riskToken_ok (sig : DecisionInputs) :
    let token := bytes "risk=" ++ decimal (decisionEvaluate sig).riskScore
    (token ≠ [] ∧ token.all isTokenByte = true) ∧ token.length ≤ 8 := by
  have hscore : (decisionEvaluate sig).riskScore < 10 ^ 3 := by
    rcases sig with ⟨p, u, d, c, v⟩
    cases p <;> cases u <;> cases d <;> cases c <;> cases v <;> decide
  have hdigit : ∀ b, isDigit b = true → isTokenByte b = true := forall_byte (by decide +kernel)
  have hlits : (bytes "risk=").length = 5 ∧ (bytes "risk=").all isTokenByte = true := by decide
  refine ⟨⟨by simp [bytes], ?_⟩, ?_⟩
  · rw [List.all_append, hlits.2, Bool.true_and]
    exact List.all_eq_true.2 fun b hb => hdigit b (isDigit_of_mem_decimal hb)
  · have hlen := length_decimal_le (by decide) hscore
    simp only [List.length_append, hlits.1]
    omega

theorem Tokens.risk {tokens : List (List Byte)} (h : Tokens tokens 64) (sig : DecisionInputs) (known : Bool) :
    let token := bytes "risk=" ++ decimal (decisionEvaluate sig).riskScore
    (if known then extrasAdd (spaced tokens) token else spaced tokens) =
        spaced (tokens ++ if known then [token] else []) ∧
      Tokens (tokens ++ if known then [token] else []) 73 := by
  obtain ⟨hok, hlen⟩ := riskToken_ok sig
  cases known with
  | true => exact h.add hok hlen (by decide)
  | false =>
    simp only [Bool.false_eq_true, if_false, List.append_nil]
    exact ⟨trivial, h.plain, h.room.trans (by decide)⟩

/-- The record's extras are the tokens, none of them dropped. -/
theorem logRecord_extras {requestId : UInt64} {rs : List (RecvOutcome 1)} {host : List Byte} {t : Trace} {o : Outcome}
    (h : Audited requestId (lineNoted rs) host (readRequest rs).isSome t o) (durationMs : Int) :
    (logRecord requestId durationMs o).extras = spaced (auditTokens rs t) ∧ Tokens (auditTokens rs t) 73 := by
  obtain ⟨hsig, hcache, hextras, htokens, hroom, hstate⟩ := h.agrees
  unfold logRecord auditTokens
  dsimp only
  rw [h.risk, hsig, hcache, hextras]
  generalize (lineNoted rs).after t = n at htokens hroom hstate
  -- first the cache's token, then the risk's
  cases hc : n.cacheState with
  | none =>
    simp only [Option.toList_none, List.map_nil, List.append_nil]
    exact Tokens.risk ⟨htokens, hroom.trans (by decide)⟩ n.sig _
  | some state =>
    have hok : (bytes state ≠ [] ∧ (bytes state).all isTokenByte = true) ∧ (bytes state).length ≤ 12 := by
      have hmem := hstate state hc
      simp only [List.mem_cons, List.not_mem_nil, or_false] at hmem
      rcases hmem with rfl | rfl | rfl | rfl <;> decide
    obtain ⟨hadd, hmore⟩ := Tokens.add ⟨htokens, hroom⟩ hok.1 hok.2 (by decide)
    simp only [Option.toList_some, List.map_cons, List.map_nil, hadd]
    exact hmore.risk n.sig _

/-- What is known of the record of a run. -/
structure Recorded (env : ClientEnv) (t : Trace) (r : LogRecord) : Prop where
  only : records t = [r]
  requestId : .asked .nextRequestId r.requestId ∈ t
  told : Told r.requestId t r.decision r.status r.byteCount
  host : r.host = (requestedHost env.client).getD [ch '-']
  extras : r.extras = spaced (auditTokens env.client t)
  tokens : Tokens (auditTokens env.client t) 73

theorem records_serveClient {ok : (q : Query) → q.Answer → Prop} {g : Globals} {env : ClientEnv} {requestId : UInt64}
    {t : Trace} {o : Outcome} (h : Runs ok (serveClient g env requestId) t o) : records t = [] := by
  have hmarks := List.filterMap_eq_nil_iff.1 (marks_serveClient h)
  refine List.filterMap_eq_nil_iff.2 fun x hx => ?_
  have hx := hmarks (clientObs x) (List.mem_map_of_mem hx)
  cases x with
  | asked q a => rfl
  | said e =>
    cases e with
    | log r => cases hx
    | _ => rfl

theorem runs_recorded {ok : (q : Query) → q.Answer → Prop} {g : Globals} {env : ClientEnv} {t : Trace} {u : Unit}
    (henv : env.Progress) (h : Runs ok (handleClient g (some env)) t u) : ∃ r, Recorded env t r := by
  obtain ⟨requestId, t₁, o, hrun, rfl⟩ := runs_handleClient h
  have haudit := audited_serveClient henv _ _ hrun
  have hnoted : ∀ n : Noted, n.after (wholeRun requestId env.durationMs o t₁) = n.after t₁ := by
    intro n
    rw [wholeRun, Noted.after_append]
    rfl
  have htokens : auditTokens env.client (wholeRun requestId env.durationMs o t₁) = auditTokens env.client t₁ := by
    unfold auditTokens
    rw [hnoted]
  have htun : tunnelEvents (wholeRun requestId env.durationMs o t₁) = tunnelEvents t₁ := by
    rw [wholeRun, tunnelEvents_append]
    exact List.append_nil _
  have hrecords : records (wholeRun requestId env.durationMs o t₁) =
      records t₁ ++ [logRecord requestId env.durationMs o] := by
    rw [wholeRun]
    exact List.filterMap_append
  obtain ⟨hextras, htok⟩ := logRecord_extras haudit env.durationMs
  refine ⟨logRecord requestId env.durationMs o, ?_, by simp [wholeRun, logRecord], ?_, haudit.host, ?_, ?_⟩
  · rw [hrecords, records_serveClient hrun, List.nil_append]
  · refine haudit.told.within (outputs_wholeRun ..) htun fun x hx => ?_
    simp [wholeRun, hx]
  · rw [htokens]
    exact hextras
  · rw [htokens]
    exact htok

/-- The arguments of `log_request_ex`, in its types. -/
def LogRecord.fields (r : LogRecord) : LogFields :=
  ⟨r.requestId, some r.host, some (bytes r.decision), Int32.ofNat r.status, UInt64.ofNat r.byteCount,
    Int64.ofInt r.durationMs, some r.extras⟩

/-- The words a record has for what was decided. -/
def decisionWords : List String :=
  ["client_closed", "bad_request", "timeout", "too_large", "bad_gateway", "gateway_timeout", "blocked_policy",
    "blocked_private", "blocked_reputation", "blocked_port", "allowed", "relay_error"]

theorem errorWord_some {status : Nat} {word : String} (h : errorWord status = some word) :
    word ∈ decisionWords ∧ status < 1000 := by
  unfold errorWord at h
  split at h
  all_goals cases h
  all_goals exact ⟨by simp [decisionWords], by decide⟩

theorem parseOriginStatus_lt (buf : List Byte) : parseOriginStatus buf < 1000 := by
  unfold parseOriginStatus
  split
  · decide
  · dsimp only
    split
    · decide
    · rename_i hdigits
      have hall : ((buf.drop 9).take 3).all isDigit = true := by simpa using hdigits
      calc numVal ((buf.drop 9).take 3) < 10 ^ ((buf.drop 9).take 3).length := numVal_lt (List.all_eq_true.1 hall)
        _ ≤ 10 ^ 3 := Nat.pow_le_pow_right (by decide) (List.length_take_le ..)

theorem Told.words {requestId : UInt64} {t : Trace} {decision : String} {status n : Nat}
    (h : Told requestId t decision status n) : decision ∈ decisionWords ∧ status < 1000 := by
  cases h with
  | error hw => exact errorWord_some hw
  | @blocked reason calls hreason =>
    cases reason with
    | none => exact absurd rfl hreason
    | _ => simp [decisionWords, blockedLabel]
  | relayed hm ho hacc hs =>
    refine ⟨by simp [decisionWords], ?_⟩
    rcases hs with rfl | rfl
    · decide
    · exact parseOriginStatus_lt _
  | broken hm hne ho hacc hn hall hs =>
    refine ⟨by simp [decisionWords], ?_⟩
    rcases hs with rfl | rfl
    · decide
    · exact parseOriginStatus_lt _
  | _ => simp [decisionWords]

/-! ### Nothing of a record is changed or cut -/

theorem decisionWords_kept : ∀ word ∈ decisionWords, sanitizeDecision (some (bytes word)) logDecisionMax = bytes word ∧
    (bytes word).length ≤ 18 := by
  decide

/-- A host as the parser leaves it is logged as it is. -/
theorem sanitizeHost_kept {host : List Byte} (hne : host ≠ []) (hlen : host.length < maxHostLen)
    (hbytes : ∀ b ∈ host, isParsedHostByte b) : loggerSanitizeHost (some host) logHostMax = some host := by
  have hclean : ∀ b, isParsedHostByte b = true →
      documentedByte b = b ∧ isDelimiter b = false ∧ (b != ch '@') = true ∧ b ≠ ch ':' :=
    forall_byte (by decide +kernel)
  have hscheme : dropScheme host = host := by
    have hnone : findScheme host = none := by
      by_contra hsome
      have hin := findScheme_isSome.1 (Option.isSome_iff_ne_none.2 hsome)
      exact (hclean (ch ':') (hbytes _ (hin.subset (by decide)))).2.2.2 rfl
    unfold dropScheme
    rw [hnone]
  have hhost : hostIn host = host := by
    have htake : (host.takeWhile fun c => !isDelimiter c) = host :=
      List.takeWhile_eq_self_iff.2 fun b hb => by simp [(hclean b (hbytes b hb)).2.1]
    unfold hostIn
    rw [htake]
    exact List.rtakeWhile_eq_self_iff.2 fun b hb => (hclean b (hbytes b hb)).2.2.1
  have hshown : shownHost host = host := by
    unfold shownHost
    rw [if_neg (by simpa using hne)]
    exact (List.map_congr_left fun b hb => (hclean b (hbytes b hb)).1).trans (List.map_id host)
  have hfits : host.length ≤ logHostMax - 1 := Nat.le_sub_one_of_lt hlen
  rw [loggerSanitizeHost_eq, if_neg (by decide), hscheme, hhost, hshown, List.take_of_length_le hfits]

theorem eq_ok_of_toOption {ε α : Type} {x : Except ε α} {a : α} (h : x.toOption = some a) : x = .ok a := by
  cases x with
  | error e => cases h
  | ok b => exact congrArg Except.ok (Option.some.inj h)

theorem requestedHost_kept (rs : List (RecvOutcome 1)) :
    loggerSanitizeHost (some ((requestedHost rs).getD [ch '-'])) logHostMax = some ((requestedHost rs).getD [ch '-']) := by
  cases hhost : requestedHost rs with
  | none => decide
  | some host =>
    have hparsed : ParserHost host := by
      unfold requestedHost at hhost
      dsimp only at hhost
      split at hhost
      · split at hhost
        · obtain ⟨target, htarget, rfl⟩ := Option.map_eq_some_iff.1 hhost
          exact .inr ⟨_, target, eq_ok_of_toOption htarget, rfl⟩
        · obtain ⟨url, hurl, rfl⟩ := Option.map_eq_some_iff.1 hhost
          exact .inl ⟨_, url, eq_ok_of_toOption hurl, rfl⟩
      · cases hhost
    obtain ⟨hne, hlen, hbytes⟩ := hparsed.facts
    exact sanitizeHost_kept hne hlen hbytes

theorem Tokens.kept {tokens : List (List Byte)} (h : Tokens tokens 73) :
    sanitizeExtras (some (spaced tokens)) logExtrasMax = spaced tokens := by
  have hroom := h.room
  have hclean : ∀ b ∈ spaced tokens, cleanExtrasByte b = b := by
    intro b hb
    rcases Lines.mem_intercalate hb with rfl | ⟨token, htoken, hb⟩
    · decide
    · have hbyte := List.all_eq_true.1 (h.plain token htoken).2 b hb
      simp only [isTokenByte, Bool.and_eq_true, beq_iff_eq] at hbyte
      exact hbyte.1
  unfold sanitizeExtras
  rw [Option.getD_some, List.take_of_length_le (hroom.trans (by decide))]
  exact (List.map_congr_left hclean).trans (List.map_id _)

/-- The bound on the fixed fields, less what a short decision saves. -/
theorem length_logFieldsText_decision (now : Option Tm) (f : LogFields) :
    (logFieldsText now f).length ≤ 406 + (safeDecision f).length := by
  have hlong : sanitizeDecision (some (List.replicate 31 (ch 'a'))) logDecisionMax = List.replicate 31 (ch 'a') := by
    decide
  have hlen := length_logFieldsText_le now { f with decision := some (List.replicate 31 (ch 'a')) }
  have hdecision : safeDecision { f with decision := some (List.replicate 31 (ch 'a')) } = List.replicate 31 (ch 'a') := hlong
  have hhost : safeHost { f with decision := some (List.replicate 31 (ch 'a')) } = safeHost f := rfl
  simp only [logFieldsText, List.length_append, hdecision, hhost, List.length_replicate] at hlen ⊢
  omega

theorem status_kept {status : Nat} (h : status < 1000) : signedDecimal (Int32.ofNat status).toInt = decimal status := by
  have hint : (Int32.ofNat status).toInt = status := Int32.toInt_ofNat_of_lt (by omega)
  rw [hint]
  rfl

/-- The tokens of the line a record is logged as. -/
def auditLine (now : Option Tm) (env : ClientEnv) (t : Trace) (r : LogRecord) : List (List Byte) :=
  [timestamp now, bytes "req=" ++ decimal r.requestId.toNat, bytes "host=" ++ (requestedHost env.client).getD [ch '-'],
    bytes "decision=" ++ bytes r.decision, bytes "status=" ++ decimal r.status,
    bytes "bytes=" ++ decimal (r.byteCount % 2 ^ 64),
    bytes "duration_ms=" ++ signedDecimal (Int64.ofInt r.durationMs).toInt] ++ auditTokens env.client t

section

variable {env : ClientEnv} {t : Trace} {r : LogRecord}

theorem auditLine_parts (now : Option Tm) (env : ClientEnv) (t : Trace) (r : LogRecord) :
    auditLine now env t r = (auditLine now env t r).take 7 ++ auditTokens env.client t :=
  rfl

/-- The logger's own fields are the record's. -/
theorem Recorded.fixed (h : Recorded env t r) (now : Option Tm) :
    logTokens now r.fields = (auditLine now env t r).take 7 := by
  obtain ⟨hword, hstatus⟩ := h.told.words
  have hdecision : safeDecision r.fields = bytes r.decision := (decisionWords_kept _ hword).1
  have hhost : safeHost r.fields = (requestedHost env.client).getD [ch '-'] := by
    show (loggerSanitizeHost (some r.host) logHostMax).getD [] = _
    rw [h.host, requestedHost_kept]
    rfl
  show [timestamp now, _, bytes "host=" ++ safeHost r.fields, bytes "decision=" ++ safeDecision r.fields,
    bytes "status=" ++ signedDecimal (Int32.ofNat r.status).toInt, _, _] = _
  rw [hhost, hdecision, status_kept hstatus]
  rfl

theorem Recorded.line (h : Recorded env t r) (now : Option Tm) :
    logLine now r.fields = spaced (auditLine now env t r) ++ [ch '\n'] := by
  obtain ⟨hdecision, hshort⟩ := decisionWords_kept _ h.told.words.1
  have hlen := length_logFieldsText_decision now r.fields
  rw [show safeDecision r.fields = bytes r.decision from hdecision] at hlen
  have hroom := h.tokens.room
  have hextras : safeExtras r.fields = spaced (auditTokens env.client t) := by
    show sanitizeExtras (some r.extras) logExtrasMax = _
    rw [h.extras]
    exact h.tokens.kept
  have hrest : (logExtrasText r.fields).length ≤ 1 + (spaced (auditTokens env.client t)).length := by
    unfold logExtrasText
    rw [hextras]
    split <;> simp [bytes, Nat.add_comm]
  have hparts := auditLine_parts now env t r
  rw [logLine_eq, List.take_of_length_le (by omega), logFieldsText_eq, h.fixed, logExtrasText, hextras]
  by_cases hnone : auditTokens env.client t = []
  · rw [hnone, List.append_nil] at hparts
    rw [hnone, ← hparts]
    exact congrArg (· ++ [ch '\n']) (List.append_nil _)
  · have hspaced : spaced (auditTokens env.client t) ≠ [] := by
      have hempty := spaced_isEmpty fun token htoken => (h.tokens.plain token htoken).1
      rw [List.isEmpty_eq_false_iff.2 hnone] at hempty
      exact List.isEmpty_eq_false_iff.1 hempty
    rw [if_pos hspaced, hparts, spaced_append (by simp [auditLine]) hnone]
    rfl

theorem Recorded.plain (h : Recorded env t r) (now : Option Tm) :
    ∀ token ∈ auditLine now env t r, token.all isPlain = true := by
  have hbyte : ∀ b, isTokenByte b = true → isPlain b = true := forall_byte (by decide +kernel)
  intro token htoken
  rw [auditLine_parts, ← h.fixed] at htoken
  rcases List.mem_append.1 htoken with htoken | htoken
  · exact plain_logTokens now r.fields token htoken
  · have hall := List.all_eq_true.1 (h.tokens.plain token htoken).2
    exact List.all_eq_true.2 fun b hb => hbyte b (hall b hb)

end

/-- **The line holds the record whole.** At its spaces it falls apart into the
seven fields with the record's own values, the host byte for byte the one that
was asked for, and the tokens of the run: none is cut, changed or dropped, and
nothing a client sends can add one. -/
theorem handleClient_logLine {g : Globals} {env : ClientEnv} {t : Trace} {u : Unit} (henv : env.Progress)
    (h : Runs (fun _ _ => True) (handleClient g (some env)) t u) (now : Option Tm) :
    ∃ r line, records t = [r] ∧ logLine now r.fields = line ++ [ch '\n'] ∧ (∀ b ∈ line, isControl b = false) ∧
      line.splitOn (ch ' ') = auditLine now env t r := by
  obtain ⟨r, hr⟩ := runs_recorded henv h
  have hplain := hr.plain now
  refine ⟨r, spaced (auditLine now env t r), hr.only, hr.line now, fun b hb => ?_, ?_⟩
  · rcases Lines.mem_intercalate hb with rfl | ⟨token, htoken, hb⟩
    · decide
    · exact isPlain_not_control (List.all_eq_true.1 (hplain token htoken) b hb)
  · refine List.splitOn_intercalate _ (fun token htoken hspace => ?_) (by simp [auditLine])
    exact isPlain_ne_space (List.all_eq_true.1 (hplain token htoken) _ hspace) rfl

theorem runWith_bind {α β : Type} (answers : (q : Query) → q.Answer) (p : Handler α) (f : α → Handler β) :
    runWith answers (p >>= f) =
      ((runWith answers p).1 ++ (runWith answers (f (runWith answers p).2)).1, (runWith answers (f (runWith answers p).2)).2) := by
  induction p with
  | pure a => rfl
  | say e k ih => exact congrArg (fun run => (.said e :: run.1, run.2)) ih
  | ask q k ih => exact congrArg (fun run => (.asked q (answers q) :: run.1, run.2)) (ih (answers q))

theorem runWith_handleClient (answers : (q : Query) → q.Answer) (g : Globals) (env : ClientEnv) :
    (runWith answers (handleClient g (some env))).1 =
      wholeRun (answers .nextRequestId) env.durationMs (runWith answers (serveClient g env (answers .nextRequestId))).2
        (runWith answers (serveClient g env (answers .nextRequestId))).1 := by
  simp only [handleClient, runWith_bind]
  rfl

/-- CONNECT to the port of a mail server. -/
theorem handleClient_logLine_blocked :
    let env := idleEnv (bytes "CONNECT Example.com:25 HTTP/1.1\r\n\r\n")
    let t := (runWith (offAnswers .zero) (handleClient {} (some env))).1
    (records t).map (fun r => logLine none r.fields) =
        [bytes "- req=1 host=example.com decision=blocked_port status=403 bytes=0 duration_ms=0 method=connect risk=100\n"] ∧
      ∃ r line, records t = [r] ∧ logLine none r.fields = line ++ [ch '\n'] ∧ (∀ b ∈ line, isControl b = false) ∧
        line.splitOn (ch ' ') = auditLine none env t r := by
  intro env t
  refine ⟨?_, handleClient_logLine ⟨by decide, by decide, by decide⟩ (runs_runWith (fun _ => trivial) _) none⟩
  have hread : (readRequestLine env.client).1 = .ok := by decide +kernel
  have hconnect : requestIsConnect (stripLine (readRequestLine env.client).2.1) = true := by decide +kernel
  have hparse : parseConnectRequest (stripLine (readRequestLine env.client).2.1) = .ok ⟨bytes "example.com", 25⟩ := by
    decide +kernel
  have hheaders : (consumeRequestHeaders (readRequestLine env.client).2.2).1 = .ok := by decide +kernel
  have hserve : serveClient {} env 1 = block env 1 .port
      { host := bytes "example.com", riskKnown := true, sig := { portDenied := true }, extras := bytes "method=connect" } := by
    simp only [serveClient, hread, hconnect, if_true, handleConnect, hparse, hheaders, connectTarget]
    rfl
  have ht : t = wholeRun 1 env.durationMs _ _ := runWith_handleClient (offAnswers .zero) {} env
  rw [ht]
  -- the record has nothing of the page, so the page need not be evaluated
  simp only [offAnswers, hserve, block, sendBlockPage_eq]
  decide +kernel

end SecureProxy
