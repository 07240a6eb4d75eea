/-
What the two byte-at-a-time loops of `proxy.c` take from a client's socket:
the line `handle_client` hands to the parsers, the header block of a CONNECT,
and not one byte more. The room in the first loop's buffer and the parsers'
limit on a line are two bounds, one byte apart where the line has no CR.
-/
import SecureProxy.Destination
import SecureProxy.Lib.Lines
import SecureProxy.UrlGrammar

namespace SecureProxy

open Bytes Progs

/-! ## What has been received -/

/-- The bytes these calls of `recv` deliver. -/
def received {cap : Nat} (rs : List (RecvOutcome cap)) : List Byte :=
  rs.flatMap fun
    | .data c => c.bytes
    | _ => []

section

variable {cap : Nat} (rs rs' : List (RecvOutcome cap))

@[simp] theorem received_nil : received ([] : List (RecvOutcome cap)) = [] := rfl

@[simp] theorem received_append : received (rs ++ rs') = received rs ++ received rs' := List.flatMap_append

@[simp] theorem received_eintr : received (.eintr :: rs) = received rs := rfl

end

theorem Chunk.bytes_eq (c : Chunk 1) : c.bytes = [c.byte] := by
  obtain ⟨bytes, nonempty, fits⟩ := c
  obtain ⟨b, tail, rfl⟩ := List.exists_cons_of_ne_nil nonempty
  obtain rfl : tail = [] := by
    rw [List.length_cons] at fits
    exact List.length_eq_zero_iff.1 (by omega)
  rfl

@[simp] theorem received_data (c : Chunk 1) (rs : List (RecvOutcome 1)) :
    received (.data c :: rs) = c.byte :: received rs := by
  change c.bytes ++ received rs = _
  rw [c.bytes_eq, List.singleton_append]

/-! ## The request line -/

/-- The bytes before the first LF. -/
def beforeLf (s : List Byte) : List Byte := s.takeWhile (· != ch '\n')

/-- The loop stops behind the first LF, having kept every byte. -/
theorem readLineLoop_ok {line out : List Byte} {room : Nat} {rs rest : List (RecvOutcome 1)}
    (h : readLineLoop line room rs = (.ok, out, rest)) :
    ∃ taken l, rs = taken ++ rest ∧ received taken = l ++ [ch '\n'] ∧ ch '\n' ∉ l ∧ 0 ∉ l ∧
      out = line ++ l ++ [ch '\n'] := by
  fun_induction readLineLoop line room rs with
  | case1 | case2 | case3 | case4 | case5 => cases h
  | case6 line room rs ih =>
    obtain ⟨taken, l, rfl, hl⟩ := ih h
    exact ⟨.eintr :: taken, l, rfl, hl⟩
  | case7 => cases h
  | case8 line room c rs hnul hlf =>
    cases h
    exact ⟨[.data c], [], rfl, by simp [hlf], by simp, by simp, by simp [hlf]⟩
  | case9 line room c rs hnul hlf ih =>
    obtain ⟨taken, l, rfl, hl, hnolf, hnonul, rfl⟩ := ih h
    refine ⟨.data c :: taken, c.byte :: l, rfl, by simp [hl], ?_, ?_, by simp⟩
    · exact List.not_mem_cons_of_ne_of_not_mem (Ne.symm hlf) hnolf
    · exact List.not_mem_cons_of_ne_of_not_mem (Ne.symm hnul) hnonul

/-- Behind the one LF only CR bytes are stripped. -/
theorem stripLine_line {l : List Byte} (h : ch '\n' ∉ l) : stripLine (l ++ [ch '\n']) = l.rdropWhile (· == ch '\r') := by
  rw [stripLine, List.rdropWhile_concat_pos _ _ _ (by simp)]
  induction l using List.reverseRecOn with
  | nil => rfl
  | append_singleton l b ih =>
    rw [List.mem_append, not_or, List.mem_singleton] at h
    have hb : (b == ch '\n') = false := beq_false_of_ne (Ne.symm h.2)
    simp only [List.rdropWhile_concat, hb, Bool.false_or, ih h.1]

/-- `text` is what stands before the client's first LF, less the CR bytes at
its end; there is no NUL in it, and `rest` is all that comes behind the LF. -/
structure HandsOver (client : List (RecvOutcome 1)) (text : List Byte) (rest : List (RecvOutcome 1)) : Prop where
  text_eq : text = (beforeLf (received client)).rdropWhile (· == ch '\r')
  noNul : 0 ∉ text
  taken : ∃ line, client = line ++ rest ∧ received line = beforeLf (received client) ++ [ch '\n']

theorem readRequestLine_ok {client rest : List (RecvOutcome 1)} {line : List Byte}
    (h : readRequestLine client = (.ok, line, rest)) : HandsOver client (stripLine line) rest := by
  obtain ⟨taken, l, rfl, hl, hnolf, hnonul, rfl⟩ := readLineLoop_ok h
  have hbefore : beforeLf (received (taken ++ rest)) = l := by
    rw [received_append, hl, List.append_assoc]
    exact Lines.takeWhile_line hnolf _
  have hstrip : stripLine ([] ++ l ++ [ch '\n']) = l.rdropWhile (· == ch '\r') := stripLine_line hnolf
  refine ⟨by rw [hbefore, hstrip], ?_, taken, rfl, by rw [hbefore, hl]⟩
  rw [hstrip]
  exact fun hmem => hnonul ((List.rdropWhile_prefix _ _).subset hmem)

/-! ## The header block of a CONNECT -/

def onlyCr (line : List Byte) : Bool := line.all (· == ch '\r')

/-- The last line is made of CR bytes only. -/
def EndsBlank (s : List Byte) : Prop :=
  ∃ init crs, s = init ++ crs ++ [ch '\n'] ∧ (∀ b ∈ crs, b = ch '\r') ∧ (init = [] ∨ init.getLast? = some (ch '\n'))

/-- `headers` is the shortest part of the stream that ends with such a line,
and `unread` all that comes behind it. -/
structure TakesHeaders (client headers unread : List (RecvOutcome 1)) : Prop where
  split : client = headers ++ unread
  blank : EndsBlank (received headers)
  shortest : ∀ p, p <+: received client → EndsBlank p → (received headers).length ≤ p.length
  limit : (received headers).length ≤ connectHeaderMax

theorem onlyCr_iff {line : List Byte} : onlyCr line = true ↔ line.countP (· != ch '\r') = 0 := by
  simp [onlyCr, List.countP_eq_zero]

/-- The loop reads a block of lines; `line` is the part of the current one it
has already counted. -/
theorem consumeHeadersLoop_ok {total lineLen : Nat} {rs unread : List (RecvOutcome 1)} {line : List Byte}
    (hlen : lineLen = line.countP (· != ch '\r')) (h : consumeHeadersLoop total lineLen rs = (.ok, unread)) :
    ∃ taken lines, rs = taken ++ unread ∧ Lines.block (ch '\n') onlyCr (received taken) line = some (lines, []) ∧
      total + (received taken).length ≤ connectHeaderMax := by
  fun_induction consumeHeadersLoop total lineLen rs generalizing line with
  | case1 | case2 | case3 | case4 => cases h
  | case5 total lineLen rs ih =>
    obtain ⟨taken, lines, rfl, hblock⟩ := ih hlen h
    exact ⟨.eintr :: taken, lines, rfl, hblock⟩
  | case6 => cases h
  | case7 total c rs hfits hlf =>
    cases h
    have hcloses : onlyCr line = true := onlyCr_iff.2 hlen.symm
    refine ⟨[.data c], [line], rfl, by simp [Lines.block, hlf, hcloses], ?_⟩
    rw [received_data, received_nil, List.length_singleton]
    omega
  | case8 total lineLen c rs hfits hlf hblank ih =>
    have hcloses : onlyCr line = false := Bool.eq_false_iff.2 fun hc => hblank (hlen.trans (onlyCr_iff.1 hc))
    obtain ⟨taken, lines, rfl, hblock, hlimit⟩ := ih (show 0 = ([] : List Byte).countP _ from rfl) h
    refine ⟨.data c :: taken, line :: lines, rfl, by simp [Lines.block, hlf, hcloses, hblock], ?_⟩
    rw [received_data, List.length_cons]
    omega
  | case9 total lineLen c rs hfits hlf ih =>
    have hcount : (if c.byte = ch '\r' then lineLen else lineLen + 1) = (line ++ [c.byte]).countP (· != ch '\r') := by
      rw [List.countP_append, List.countP_singleton, hlen]
      by_cases hcr : c.byte = ch '\r' <;> simp [hcr]
    obtain ⟨taken, lines, rfl, hblock, hlimit⟩ := ih hcount h
    refine ⟨.data c :: taken, lines, rfl, by simp [Lines.block, hlf, hblock], ?_⟩
    rw [received_data, List.length_cons]
    omega

/-- Such a text is whole lines, the last of which closes a block. -/
theorem EndsBlank.lines {s : List Byte} (h : EndsBlank s) :
    ∃ ls, (∀ line ∈ ls, ch '\n' ∉ line) ∧ (∃ line ∈ ls, onlyCr line = true) ∧ s = Lines.render (ch '\n') ls := by
  obtain ⟨init, crs, rfl, hcrs, hinit⟩ := h
  obtain ⟨ls, hls, rfl⟩ := Lines.exists_render hinit
  refine ⟨ls ++ [crs], fun line hline => ?_, ⟨crs, by simp, by simpa [onlyCr] using hcrs⟩, by simp⟩
  rcases List.mem_append.1 hline with hline | hline
  · exact hls line hline
  · obtain rfl := List.mem_singleton.1 hline
    exact fun hlf => absurd (hcrs _ hlf) (by decide)

theorem endsBlank_render {lines : List (List Byte)} (h : Lines.IsBlock (ch '\n') onlyCr lines) :
    EndsBlank (Lines.render (ch '\n') lines) := by
  induction h with
  | @last line _ hcloses => exact ⟨[], line, by simp, by simpa [onlyCr] using hcloses, .inl rfl⟩
  | @cons line lines _ _ _ ih =>
    obtain ⟨init, crs, heq, hcrs, hinit⟩ := ih
    refine ⟨line ++ ch '\n' :: init, crs, by simp [heq], hcrs, .inr ?_⟩
    rcases hinit with rfl | hinit
    · simp
    · rw [List.getLast?_append_of_ne_nil _ (List.cons_ne_nil _ _), List.getLast?_cons, hinit]
      rfl

theorem consumeRequestHeaders_ok {client unread : List (RecvOutcome 1)}
    (h : consumeRequestHeaders client = (.ok, unread)) : ∃ headers, TakesHeaders client headers unread := by
  obtain ⟨headers, lines, rfl, hread, hlimit⟩ := consumeHeadersLoop_ok (show 0 = ([] : List Byte).countP _ from rfl) h
  obtain ⟨hblock, hrender⟩ := Lines.block_eq_some_iff.1 hread
  rw [List.append_nil] at hrender
  refine ⟨headers, rfl, hrender ▸ endsBlank_render hblock, fun p hp hblank => ?_, by omega⟩
  obtain ⟨ls, hls, hcloses, rfl⟩ := hblank.lines
  obtain ⟨rest, hrest⟩ := hp
  rw [received_append, hrender] at hrest
  rw [hrender]
  exact hblock.shortest hls hcloses hrest.symm

/-! ## What is answered -/

/-- Only these statuses are answered, and what is returned is in `post`. -/
structure Answers {α : Type} (S : List Nat) (post : α → Prop) (p : Handler α) : Prop where
  spec : p.Spec (fun _ => True) (ClientEvent.Within S) post

section

variable {α β : Type} {S : List Nat} {post : α → Prop} {g : Globals} {env : ClientEnv} {requestId : UInt64} {o : Outcome}

theorem Answers.bind {mid : α → Prop} {post : β → Prop} {p : Handler α} {f : α → Handler β} (hp : Answers S mid p)
    (hf : ∀ a, mid a → Answers S post (f a)) : Answers S post (p >>= f) :=
  ⟨hp.spec.bind fun a ha => (hf a ha).spec⟩

theorem Answers.pure {a : α} (h : post a) : Answers S post (Pure.pure a) := ⟨spec_pure h⟩

theorem Answers.ask {q : Query} : Answers S (fun _ => True) q.ask := ⟨spec_query trivial⟩

theorem ServesHost.answers {host : List Byte} {port : Nat} {p : Handler α} (h : ServesHost host port S post p) :
    Answers S post p :=
  ⟨h.spec.mono (fun _ _ => trivial) fun _ he => he.2⟩

theorem answers_error {status : Nat} {text : String} {body : List Byte} (hs : status ∈ S) (ho : o.Sized) :
    Answers S Outcome.Sized (do sendErrorResponse env status text body; return o) :=
  (error_serves hs ho : ServesHost [] 0 S _ _).answers

theorem answers_block {reason : DecisionReason} (h : 403 ∈ S) :
    Answers S Outcome.Sized (block env requestId reason o) :=
  (block_serves h : ServesHost [] 0 S _ _).answers

theorem answers_checkDestination {host : List Byte} : Answers S (fun _ => True) (checkDestination env host o) := by
  refine .bind .ask fun policy _ => ?_
  split
  · exact .pure trivial
  · refine .bind .ask fun on _ => ?_
    split
    · exact .bind .ask fun _ _ => .pure trivial
    · exact .pure trivial

/-- A request that is checked, and then blocked or served. -/
theorem answers_checked {host : List Byte} {next : Outcome → Handler Outcome} (h : 403 ∈ S)
    (hnext : ∀ o, Answers S Outcome.Sized (next o)) :
    Answers S Outcome.Sized (checkDestination env host o >>= fun o => unlessBlocked env requestId o (next o)) := by
  refine .bind answers_checkDestination fun o _ => ?_
  unfold unlessBlocked
  split
  · exact answers_block h
  · exact hnext o

theorem handlePlain_answers {line : List Byte} (h400 : 400 ∈ S) (h403 : 403 ∈ S) (h502 : 502 ∈ S) (h504 : 504 ∈ S) :
    Answers S Outcome.Sized (handlePlain g env requestId line) := by
  unfold handlePlain
  split
  · exact answers_error h400 (sized_withStatus (by decide))
  · exact answers_checked h403 fun _ => (servePlain_serves h403 h502 h504).answers

theorem connectTarget_answers {target : ParsedConnect} (h200 : 200 ∈ S) (h403 : 403 ∈ S) (h502 : 502 ∈ S) :
    Answers S Outcome.Sized (connectTarget g env requestId target o) := by
  unfold connectTarget
  dsimp only
  split
  · exact answers_block h403
  · exact answers_checked h403 fun _ => (connectOrigin_serves h200 h403 h502).answers

/-- Without the whole header block there is no tunnel. -/
theorem handleConnect_answers {line : List Byte} {rest : List (RecvOutcome 1)} (h400 : 400 ∈ S) (h408 : 408 ∈ S)
    (h : (consumeRequestHeaders rest).1 = .ok → 200 ∈ S ∧ 403 ∈ S ∧ 502 ∈ S) :
    Answers S Outcome.Sized (handleConnect g env requestId line rest o) := by
  unfold handleConnect
  split
  · exact answers_error h400 (sized_withStatus (by decide))
  · dsimp only
    split
    · rename_i hs
      obtain ⟨h200, h403, h502⟩ := h hs
      exact connectTarget_answers h200 h403 h502
    · exact answers_error h408 (sized_withStatus (by decide))
    · exact answers_error h400 (sized_withStatus (by decide))
    all_goals exact .pure (sized_withStatus (by decide))

end

/-! ## The string handed to the parsers -/

/-- What `handle_client` does without a line. -/
def refuseLine (env : ClientEnv) : ReadLineStatus → Handler Outcome
  | .tooLarge => do
    sendErrorResponse env 413 "Payload Too Large" (bytes "413 Payload Too Large: Request URL exceeds 2048B.\n")
    return Outcome.withStatus {} "too_large" 413
  | .timeout => do
    sendErrorResponse env 408 "Request Timeout" (bytes "408 Request Timeout: No complete request line received.\n")
    return Outcome.withStatus {} "timeout" 408
  | .badBytes => do
    sendErrorResponse env 400 "Bad Request"
      (bytes "400 Bad Request: Request contains forbidden control characters.\n")
    return Outcome.withStatus {} "bad_request" 400
  | .closed | .error | .ok => pure {}

/-- What it does with one: `text` is the string, `rest` what is still unread. -/
def serveLine (g : Globals) (env : ClientEnv) (requestId : UInt64) (text : List Byte) (rest : List (RecvOutcome 1)) :
    Handler Outcome :=
  if requestIsConnect text then
    handleConnect g env requestId text rest { extras := extrasAdd [] (bytes "method=connect") }
  else handlePlain g env requestId text

/-- An event of an open tunnel, or of its announcement. -/
def ClientEvent.OfTunnel : ClientEvent → Prop
  | .respond .established _ | .tunnel _ => True
  | _ => False

section

variable {g : Globals} {env : ClientEnv} {requestId : UInt64}

theorem serveClient_refuses {status : ReadLineStatus} {line : List Byte} {rest : List (RecvOutcome 1)}
    (hread : readRequestLine env.client = (status, line, rest)) (h : status ≠ .ok) :
    serveClient g env requestId = refuseLine env status := by
  unfold serveClient
  rw [hread]
  cases status with
  | ok => exact absurd rfl h
  | _ => rfl

theorem serveClient_serves {line : List Byte} {rest : List (RecvOutcome 1)}
    (hread : readRequestLine env.client = (.ok, line, rest)) :
    serveClient g env requestId = serveLine g env requestId (stripLine line) rest := by
  unfold serveClient
  rw [hread]
  rfl

theorem refuseLine_refuses (status : ReadLineStatus) : refuses env (refuseLine env status) := by
  cases status with
  | tooLarge | timeout | badBytes => exact .inr ⟨_, _, _, _, rfl⟩
  | closed | error | ok => exact .inl ⟨_, rfl⟩

theorem ClientEvent.OfTunnel.within {e : ClientEvent} {S : List Nat} (h : e.OfTunnel) (hS : e.Within S) : 200 ∈ S := by
  cases e with
  | respond r calls =>
    cases r with
    | established => exact hS
    | _ => exact h.elim
  | tunnel e => exact hS
  | _ => exact h.elim

theorem serveLine_answers (text : List Byte) (rest : List (RecvOutcome 1)) :
    Answers [200, 400, 403, 408, 502, 504] Outcome.Sized (serveLine g env requestId text rest) := by
  unfold serveLine
  split
  · exact handleConnect_answers (by simp) (by simp) fun _ => by simp
  · exact handlePlain_answers (by simp) (by simp) (by simp) (by simp)

/-- Only behind the header block of a CONNECT is a tunnel opened. -/
theorem serveLine_ofTunnel {ok : (q : Query) → q.Answer → Prop} {t : Trace} {o : Outcome} {e : ClientEvent}
    {text : List Byte} {rest : List (RecvOutcome 1)} (h : Runs ok (serveLine g env requestId text rest) t o)
    (hmem : .said e ∈ t) (he : e.OfTunnel) : requestIsConnect text = true ∧ (consumeRequestHeaders rest).1 = .ok := by
  unfold serveLine at h
  by_cases hconnect : requestIsConnect text = true
  · rw [if_pos hconnect] at h
    refine ⟨hconnect, by_contra fun hs => ?_⟩
    have hanswers : Answers [400, 408] Outcome.Sized
        (handleConnect g env requestId text rest { extras := extrasAdd [] (bytes "method=connect") }) :=
      handleConnect_answers (by simp) (by simp) fun hok => absurd hok hs
    exact absurd (he.within ((h.all hanswers.spec.all).1 e hmem)) (by decide)
  · rw [if_neg hconnect] at h
    have hanswers : Answers [400, 403, 502, 504] Outcome.Sized (handlePlain g env requestId text) :=
      handlePlain_answers (by simp) (by simp) (by simp) (by simp)
    exact absurd (he.within ((h.all hanswers.spec.all).1 e hmem)) (by decide)

end

/-- **What is validated is what was sent, and nothing else is taken.** Without
a whole line `handle_client` hands nothing on; with one, the string is all that
was sent before its LF, up to the CR bytes at its end. Where a tunnel is
opened, exactly the header block has been taken behind it. -/
theorem handleClient_reads (g : Globals) (env : ClientEnv) :
    (∀ requestId,
      (∃ status, status ≠ .ok ∧ serveClient g env requestId = refuseLine env status) ∨
      ∃ text rest, HandsOver env.client text rest ∧
        serveClient g env requestId = serveLine g env requestId text rest) ∧
    ∀ ok t u e, Runs ok (handleClient g (some env)) t u → .said e ∈ t → e.OfTunnel →
      ∃ text rest headers unread, HandsOver env.client text rest ∧ requestIsConnect text = true ∧
        consumeRequestHeaders rest = (.ok, unread) ∧ TakesHeaders rest headers unread := by
  obtain ⟨⟨status, line, rest⟩, hread⟩ : ∃ read, readRequestLine env.client = read := ⟨_, rfl⟩
  constructor
  · intro requestId
    by_cases hstatus : status = .ok
    · subst hstatus
      exact .inr ⟨_, _, readRequestLine_ok hread, serveClient_serves hread⟩
    · exact .inl ⟨status, hstatus, serveClient_refuses hread hstatus⟩
  · intro ok t u e hrun hmem he
    obtain ⟨requestId, t₁, o, hserve, rfl⟩ := runs_handleClient hrun
    have hsaid : .said e ∈ t₁ := by
      rcases said_wholeRun _ _ _ _ hmem with hmem | rfl | rfl | rfl
      · exact hmem
      all_goals exact he.elim
    by_cases hstatus : status = .ok
    · subst hstatus
      rw [serveClient_serves hread] at hserve
      obtain ⟨hconnect, hok⟩ := serveLine_ofTunnel hserve hsaid he
      have hconsume : consumeRequestHeaders rest = (.ok, (consumeRequestHeaders rest).2) := Prod.ext hok rfl
      obtain ⟨headers, htakes⟩ := consumeRequestHeaders_ok hconsume
      exact ⟨_, rest, headers, _, readRequestLine_ok hread, hconnect, hconsume, htakes⟩
    · rw [serveClient_refuses hread hstatus] at hserve
      rcases (refuseLine_refuses status).runs hserve with rfl | ⟨code, text, calls, rfl⟩
      · cases hsaid
      · obtain rfl := Obs.said.inj (List.mem_singleton.1 hsaid)
        exact he.elim

/-- A client that does not wait for the answer to its CONNECT. -/
theorem handleClient_reads_early :
    let addr := Sockaddr.inet ![93, 184, 216, 34]
    let env := { idleEnv (bytes "CONNECT example.com:443 HTTP/1.1\r\nA: b\r\n\r\nhello") with
      connect := ⟨none, some [addr], fun _ => ⟨some 7, true, .ok, true, true, some addr⟩⟩ }
    ∃ text rest headers unread, HandsOver env.client text rest ∧ requestIsConnect text = true ∧
      consumeRequestHeaders rest = (.ok, unread) ∧ TakesHeaders rest headers unread := by
  intro addr env
  have hany : ((runWith (offAnswers .zero) (handleClient {} (some env))).1.any fun
      | .said (.respond .established _) => true
      | _ => false) = true := by decide +kernel
  obtain ⟨e, hmem, he⟩ := List.any_eq_true.1 hany
  split at he
  · exact (handleClient_reads {} env).2 _ _ _ _ (runs_runWith (fun q => offAnswers_ok .zero q) _) hmem trivial
  · cases he

/-! ## The size limit -/

/-- The client sends `line`, and behind it CR LF or a bare LF, however often
`recv` is interrupted. A CR before the LF belongs to the terminator. -/
structure SendsLine (client : List (RecvOutcome 1)) (line : List Byte) (cr : Bool) : Prop where
  arrives : ∃ taken rest, client = taken ++ rest ∧ (∀ r ∈ taken, r = .eintr ∨ ∃ c, r = .data c) ∧
    received taken = line ++ if cr then [ch '\r', ch '\n'] else [ch '\n']
  noLf : ch '\n' ∉ line
  noNul : 0 ∉ line
  bare : cr = false → line.getLast? ≠ some (ch '\r')

/-- The client gets a 413 and nothing else, and the log says why. -/
def TooLarge (t : Trace) : Prop :=
  (∃ text calls, outputs t = [.response (.error 413 text) calls]) ∧
    ∃ r, .said (.log r) ∈ t ∧ r.decision = "too_large" ∧ r.status = 413

def NeverTooLarge (t : Trace) : Prop :=
  (∀ r calls, .said (.respond r calls) ∈ t → r.status ≠ 413) ∧ ∀ r, .said (.log r) ∈ t → r.decision ≠ "too_large"

/-- A line of more than 2048 bytes is too large, and no other. -/
def KeepsLimit (g : Globals) (env : ClientEnv) (line : List Byte) : Prop :=
  ∀ ok t u, Runs ok (handleClient g (some env)) t u →
    (maxUrlLen < line.length → TooLarge t) ∧ (line.length ≤ maxUrlLen → NeverTooLarge t)

/-- A line that arrives is read if it fits with its LF. -/
theorem readLineLoop_line {line l : List Byte} {room : Nat} {taken rest : List (RecvOutcome 1)}
    (hlive : ∀ r ∈ taken, r = .eintr ∨ ∃ c, r = .data c) (hl : received taken = l ++ [ch '\n']) (hlf : ch '\n' ∉ l)
    (hnul : 0 ∉ l) : (readLineLoop line room (taken ++ rest)).1 = if l.length < room then .ok else .tooLarge := by
  induction taken generalizing line l room with
  | nil => simp at hl
  | cons r taken ih =>
    obtain ⟨hr, htaken⟩ := List.forall_mem_cons.1 hlive
    cases room with
    | zero => simp [readLineLoop]
    | succ room =>
      rcases hr with rfl | ⟨c, rfl⟩
      · exact ih htaken hl hlf hnul
      · rw [received_data] at hl
        simp only [List.cons_append, readLineLoop]
        cases l with
        | nil =>
          obtain ⟨hc, -⟩ := List.cons.inj hl
          rw [hc, if_neg (by decide), if_pos rfl, List.length_nil, if_pos (Nat.succ_pos room)]
        | cons b l =>
          obtain ⟨rfl, htail⟩ := List.cons.inj hl
          rw [List.mem_cons, not_or] at hlf hnul
          rw [if_neg (Ne.symm hnul.1), if_neg (Ne.symm hlf.1), ih htaken htail hlf.2 hnul.2]
          simp only [List.length_cons, Nat.add_lt_add_iff_right]

section

variable {g : Globals} {env : ClientEnv} {line : List Byte} {cr : Bool}

/-- The buffer has room for CR LF, so for one byte more where there is no CR. -/
theorem SendsLine.status {client : List (RecvOutcome 1)} (h : SendsLine client line cr) :
    (readRequestLine client).1 =
      if line.length ≤ maxUrlLen ∨ cr = false ∧ line.length = maxUrlLen + 1 then .ok else .tooLarge := by
  obtain ⟨taken, rest, rfl, hlive, hreceived⟩ := h.arrives
  unfold readRequestLine
  cases cr with
  | false =>
    rw [readLineLoop_line hlive hreceived h.noLf h.noNul]
    refine if_congr ?_ rfl rfl
    simp only [requestLineBufLen, true_and]
    omega
  | true =>
    have hlf : ch '\n' ∉ line ++ [ch '\r'] := by simpa using ⟨h.noLf, by decide⟩
    have hnul : 0 ∉ line ++ [ch '\r'] := by simpa using ⟨h.noNul, by decide⟩
    rw [readLineLoop_line hlive (by simpa using hreceived) hlf hnul]
    refine if_congr ?_ rfl rfl
    simp only [List.length_append, List.length_singleton, requestLineBufLen, Bool.true_eq_false, false_and, or_false]
    omega

variable {ok : (q : Query) → q.Answer → Prop} {t : Trace} {u : Unit}

theorem handleClient_tooLarge (hstatus : (readRequestLine env.client).1 = .tooLarge)
    (h : Runs ok (handleClient g (some env)) t u) : TooLarge t := by
  obtain ⟨requestId, t₁, o, hserve, rfl⟩ := runs_handleClient h
  have hread : readRequestLine env.client = (.tooLarge, (readRequestLine env.client).2) := Prod.ext hstatus rfl
  rw [serveClient_refuses hread (by decide)] at hserve
  have ho : o = Outcome.withStatus {} "too_large" 413 := by
    simp only [refuseLine, sendErrorResponse, runs_bind_iff, runs_tell_iff, runs_pure_iff] at hserve
    obtain ⟨_, _, _, _, ⟨-, rfl⟩, -⟩ := hserve
    rfl
  refine ⟨⟨_, _, by rw [outputs_wholeRun, runs_error hserve]; rfl⟩, logRecord requestId env.durationMs o, ?_⟩
  rw [ho]
  exact ⟨by simp [wholeRun], rfl, rfl⟩

/-- A line that was read is never called too large. -/
theorem handleClient_sized (hstatus : (readRequestLine env.client).1 = .ok)
    (h : Runs ok (handleClient g (some env)) t u) : NeverTooLarge t := by
  obtain ⟨requestId, t₁, o, hserve, rfl⟩ := runs_handleClient h
  have hread : readRequestLine env.client = (.ok, (readRequestLine env.client).2) := Prod.ext hstatus rfl
  rw [serveClient_serves hread] at hserve
  obtain ⟨hsaid, -⟩ := hserve.all (serveLine_answers _ _).spec.all
  have hsized := hserve.returns (serveLine_answers _ _).spec
  constructor
  · intro r calls hmem hr
    rcases said_wholeRun _ _ _ _ hmem with hmem | heq | heq | heq
    · have hwithin : r.status ∈ _ := hsaid _ hmem
      rw [hr] at hwithin
      exact absurd hwithin (by decide)
    all_goals cases heq
  · intro r hmem
    rcases said_wholeRun _ _ _ _ hmem with hmem | heq | heq | heq
    · exact (hsaid _ hmem).elim
    · cases heq
    · cases heq
      exact hsized
    · cases heq

/-- What the parsers refuse as overlong is answered with a 400. -/
theorem runs_serveLine_overlong {requestId : UInt64} {o : Outcome} {text : List Byte} {rest : List (RecvOutcome 1)}
    (hlong : maxUrlLen < text.length) (h : Runs ok (serveLine g env requestId text rest) t o) :
    ∃ body calls, t = [.said (.respond (.error 400 body) calls)] := by
  unfold serveLine at h
  split at h
  · have hparse : parseConnectRequest text = .error .overlong := by
      rw [parseConnectRequest, decide_eq_true hlong]
      rfl
    rw [handleConnect, hparse] at h
    exact ⟨_, _, runs_error h⟩
  · rw [handlePlain, parseHttpUrl_overlong.2 hlong] at h
    exact ⟨_, _, runs_error h⟩

/-- Before a bare LF the line is handed on whole. -/
theorem SendsLine.text {client rest : List (RecvOutcome 1)} {text : List Byte} (h : SendsLine client line false)
    (hands : HandsOver client text rest) : text = line := by
  obtain ⟨taken, more, rfl, -, hreceived⟩ := h.arrives
  have hbefore : beforeLf (received (taken ++ more)) = line := by
    rw [received_append, hreceived, List.append_assoc]
    exact Lines.takeWhile_line h.noLf _
  rw [hands.text_eq, hbefore, List.rdropWhile_eq_self_iff]
  intro hne hlast
  refine h.bare rfl ?_
  rw [List.getLast?_eq_some_getLast hne, eq_of_beq hlast]

/-- The one line that is read and yet too long for the parsers. -/
theorem SendsLine.bad_request (h : SendsLine env.client line false) (hone : line.length = maxUrlLen + 1)
    (hrun : Runs ok (handleClient g (some env)) t u) :
    ∃ body calls, outputs t = [.response (.error 400 body) calls] := by
  obtain ⟨requestId, t₁, o, hserve, rfl⟩ := runs_handleClient hrun
  have hstatus := h.status
  rw [if_pos (.inr ⟨rfl, hone⟩)] at hstatus
  have hread : readRequestLine env.client = (.ok, (readRequestLine env.client).2) := Prod.ext hstatus rfl
  rw [serveClient_serves hread, h.text (readRequestLine_ok hread)] at hserve
  obtain ⟨body, calls, rfl⟩ := runs_serveLine_overlong (by omega) hserve
  exact ⟨body, calls, outputs_wholeRun _ _ _ _⟩

theorem SendsLine.not_keepsLimit (h : SendsLine env.client line false) (hone : line.length = maxUrlLen + 1) :
    ¬ KeepsLimit g env line := by
  intro hkeeps
  have hrun := runs_runWith (offAnswers_ok .zero) (handleClient g (some env))
  obtain ⟨⟨text, calls, h413⟩, -⟩ := (hkeeps _ _ _ hrun).1 (by omega)
  obtain ⟨body, calls', h400⟩ := h.bad_request hone hrun
  rw [h400] at h413
  cases h413

end

/-- **The two limits agree but for one byte.** The buffer of
`read_request_line` has room for CR LF; before a bare LF it takes a line of
2049 bytes, which the parsers then refuse. -/
theorem handleClient_keepsLimit {g : Globals} {env : ClientEnv} {line : List Byte} {cr : Bool}
    (h : SendsLine env.client line cr) : KeepsLimit g env line ↔ ¬ (cr = false ∧ line.length = maxUrlLen + 1) := by
  constructor
  · intro hkeeps hone
    obtain ⟨rfl, hone⟩ := hone
    exact h.not_keepsLimit hone hkeeps
  · intro hone ok t u hrun
    have hstatus := h.status
    constructor
    · intro hlong
      rw [if_neg (not_or.2 ⟨Nat.not_le.2 hlong, hone⟩)] at hstatus
      exact handleClient_tooLarge hstatus hrun
    · intro hshort
      rw [if_pos (.inl hshort)] at hstatus
      exact handleClient_sized hstatus hrun

@[simp] theorem received_clientSends (s : List Byte) : received (clientSends s) = s := by
  induction s with
  | nil => rfl
  | cons b s ih => exact (received_data _ _).trans (congrArg _ ih)

/-- `n` times the letter a. -/
def longLine (n : Nat) : List Byte := List.replicate n (ch 'a')

theorem sendsLine_longLine (n : Nat) (cr : Bool) :
    SendsLine (clientSends (longLine n ++ if cr then [ch '\r', ch '\n'] else [ch '\n'])) (longLine n) cr where
  arrives := by
    refine ⟨_, [], (List.append_nil _).symm, fun r hr => ?_, received_clientSends _⟩
    obtain ⟨b, -, rfl⟩ := List.mem_map.1 hr
    exact .inr ⟨_, rfl⟩
  noLf h := absurd (List.eq_of_mem_replicate h) (by decide)
  noNul h := absurd (List.eq_of_mem_replicate h) (by decide)
  bare _ h := absurd (List.eq_of_mem_replicate (List.mem_of_getLast? h)) (by decide)

/-- One byte too many before CR LF. -/
theorem handleClient_keepsLimit_crlf :
    KeepsLimit {} (idleEnv (longLine 2049 ++ [ch '\r', ch '\n'])) (longLine 2049) :=
  (handleClient_keepsLimit (sendsLine_longLine 2049 true)).2 (by simp)

/-- The same line before a bare LF is a bad request. -/
theorem handleClient_limit_lf :
    let env := idleEnv (longLine 2049 ++ [ch '\n'])
    SendsLine env.client (longLine 2049) false ∧ maxUrlLen < (longLine 2049).length ∧ ¬ KeepsLimit {} env (longLine 2049) ∧
      ∀ ok t u, Runs ok (handleClient {} (some env)) t u → ∃ body calls, outputs t = [.response (.error 400 body) calls] := by
  intro env
  have hsends : SendsLine env.client (longLine 2049) false := sendsLine_longLine 2049 false
  have hlength : (longLine 2049).length = maxUrlLen + 1 := List.length_replicate
  exact ⟨hsends, by omega, hsends.not_keepsLimit hlength, fun ok t u hrun => hsends.bad_request hlength hrun⟩

end SecureProxy
