/-
`handle_client` and `handle_connect` (`proxy.c`): one worker, from the first
byte of the request line to the close of the client's socket.

A worker is a program (`Lib.Prog`). It asks the state it shares with the
other threads: the policy, the reputation module, the response cache, the
request counter and the count of active clients. What its own sockets and
the resolver do is `ClientEnv`, given beforehand, any of it possible. What it
says is what it does to the world outside.

The `goto cleanup` of the source is the return of an `Outcome`, the local
variables the cleanup reads.
-/
import SecureProxy.CacheEligibility
import SecureProxy.Decision
import SecureProxy.Fetch
import SecureProxy.Lib.Prog
import SecureProxy.Tunnel

namespace SecureProxy

open Bytes Progs

def requestLineBufLen : Nat := maxUrlLen + 3
def connectHeaderMax : Nat := 8192

/-- The settings workers read, fixed before the first of them starts. -/
structure Globals where
  allowPrivate : Bool := false
  connectPort : Nat := 443
  tunnelIdleSeconds : Nat := 120
  deriving DecidableEq, Repr

/-! ## What a worker asks and says -/

inductive Query where
  | nextRequestId
  | policyCheckHost (host : List Byte)
  | reputationIsEnabled
  | reputationCheck (host : List Byte)
  | cacheIsEnabled
  | cacheLookup (key : List Byte)
  | cacheStore (key data : List Byte) (ttl : Nat)
  /-- `g_active_clients--`. -/
  | leave
  deriving DecidableEq, Repr

abbrev Query.Answer : Query → Type
  | .nextRequestId => UInt64
  | .policyCheckHost _ => PolicyDecision
  | .reputationIsEnabled => Bool
  | .reputationCheck _ => ReputationResult
  | .cacheIsEnabled => Bool
  | .cacheLookup _ => Option (List Byte)
  | .cacheStore .. => Bool
  | .leave => Unit

/-- A response the proxy makes itself. -/
inductive ProxyResponse where
  | error (status : Nat) (bytes : List Byte)
  | blockPage (reason : DecisionReason) (bytes : List Byte)
  | established
  deriving DecidableEq, Repr

def establishedText : List Byte := bytes "HTTP/1.1 200 Connection Established\r\n\r\n"

def ProxyResponse.status : ProxyResponse → Nat
  | .error status _ => status
  | .blockPage .. => 403
  | .established => 200

def ProxyResponse.text : ProxyResponse → List Byte
  | .error _ bytes => bytes
  | .blockPage _ bytes => bytes
  | .established => establishedText

/-- Where the bytes of a relayed response come from. -/
inductive RelaySource where
  | cached
  | origin
  deriving DecidableEq, Repr

structure LogRecord where
  requestId : UInt64
  host : List Byte
  decision : String
  status : Nat
  byteCount : Nat
  durationMs : Int
  extras : List Byte
  deriving DecidableEq, Repr

inductive ClientEvent where
  | freeArgs
  /-- A response of the proxy's own, with the calls made on the client's socket for it. -/
  | respond (r : ProxyResponse) (calls : List WriteCall)
  /-- One call on the client's socket with bytes of a cached or an origin's response. -/
  | relay (src : RelaySource) (call : WriteCall)
  | originConnect (host : List Byte) (port : Nat)
  | conn (e : ConnEvent)
  | toOrigin (call : WriteCall)
  /-- `fetch_and_relay` has returned, having received these bytes. -/
  | fetched (url : ParsedUrl) (status : FetchStatus) (received : List Byte)
  | tunnel (e : TunnelEvent)
  | log (r : LogRecord)
  | drainAndClose
  deriving DecidableEq

abbrev Handler := Prog Query.Answer ClientEvent

def Query.ask (q : Query) : Handler q.Answer := Prog.query q

/-- What a worker's sockets and the resolver do. `client` is what `recv` on
the client's socket answers while the request is read, `writes` what `write`
and `send` on it answer to all but the relay of an origin's response. -/
structure ClientEnv where
  client : List (RecvOutcome 1)
  writes : List WriteOutcome := []
  hostIsNumericAddress : List Byte → Bool
  fetch : FetchEnv
  connect : ConnectEnv
  tunnel : List PollOutcome := []
  tunnelOriginWrites : List WriteOutcome := []
  durationMs : Int := 0

/-! ## Reading -/

inductive ReadLineStatus where
  | ok
  | tooLarge
  | timeout
  | closed
  | error
  | badBytes
  deriving DecidableEq, Repr

/-- The byte a one-byte `recv` delivers. -/
def Chunk.byte (c : Chunk 1) : Byte := c.bytes.head c.nonempty

/-- The loop of `read_request_line` with room for `room` more bytes: the
status, the line read, and what is left of the stream. -/
def readLineLoop (line : List Byte) : Nat → List (RecvOutcome 1) → ReadLineStatus × List Byte × List (RecvOutcome 1)
  | 0, rs => (.tooLarge, line, rs)
  | _ + 1, [] => (.timeout, line, [])
  | _ + 1, .eagain :: rs => (.timeout, line, rs)
  | _ + 1, .err :: rs => (.error, line, rs)
  | _ + 1, .eof :: rs => (.closed, line, rs)
  | room + 1, .eintr :: rs => readLineLoop line (room + 1) rs
  | room + 1, .data c :: rs =>
    if c.byte = 0 then (.badBytes, line, rs)
    else if c.byte = ch '\n' then (.ok, line ++ [c.byte], rs)
    else readLineLoop (line ++ [c.byte]) room rs

def readRequestLine (rs : List (RecvOutcome 1)) : ReadLineStatus × List Byte × List (RecvOutcome 1) :=
  readLineLoop [] (requestLineBufLen - 1) rs

/-- The loop of `consume_request_headers` after `total` bytes, `lineLen` of
them in the current line (CR not counted). -/
def consumeHeadersLoop : Nat → Nat → List (RecvOutcome 1) → ReadLineStatus × List (RecvOutcome 1)
  | _, _, [] => (.timeout, [])
  | _, _, .eagain :: rs => (.timeout, rs)
  | _, _, .err :: rs => (.error, rs)
  | _, _, .eof :: rs => (.closed, rs)
  | total, lineLen, .eintr :: rs => consumeHeadersLoop total lineLen rs
  | total, lineLen, .data c :: rs =>
    if total + 1 > connectHeaderMax then (.tooLarge, rs)
    else if c.byte = ch '\n' then
      if lineLen = 0 then (.ok, rs) else consumeHeadersLoop (total + 1) 0 rs
    else consumeHeadersLoop (total + 1) (if c.byte = ch '\r' then lineLen else lineLen + 1) rs

def consumeRequestHeaders (rs : List (RecvOutcome 1)) : ReadLineStatus × List (RecvOutcome 1) :=
  consumeHeadersLoop 0 0 rs

/-- A line without the LF and CR bytes at its end. -/
def stripLine (line : List Byte) : List Byte := line.rdropWhile fun b => b == ch '\n' || b == ch '\r'

/-! ## Responses -/

/-- The text of `send_error_response`, cut as its buffer would. -/
def errorResponse (status : Nat) (statusText : String) (body : List Byte) : List Byte :=
  let text := bytes "HTTP/1.1 " ++ decimal status ++ ch ' ' :: bytes statusText ++
    bytes "\r\nContent-Type: text/plain\r\nContent-Length: " ++ decimal body.length ++
    bytes "\r\nConnection: close\r\n\r\n" ++ body
  let size := maxHostLen + maxPathLen + 256
  if text.length < size then text else text.take (size - 1) ++ [0]

/-- One `send`, whose result is not looked at. -/
def sendOnce (buf : List Byte) : List WriteOutcome → WriteCall
  | [] => ⟨buf, buf.length⟩
  | .ret n :: _ => ⟨buf, min n buf.length⟩
  | .eintr :: _ | .err :: _ => ⟨buf, 0⟩

def sendErrorResponse (env : ClientEnv) (status : Nat) (statusText : String) (body : List Byte) : Handler Unit :=
  let response := errorResponse status statusText body
  .tell (.respond (.error status response) [sendOnce response env.writes])

/-- A body built by `snprintf` in 256 bytes. -/
def bodyLine (what detail : String) : List Byte := (bytes what ++ bytes detail ++ [ch '\n']).take 255

def sendBlockPage (env : ClientEnv) (requestId : UInt64) (reason : DecisionReason) : Handler Unit :=
  match decisionBuildBlockResponse 2048 requestId reason with
  | none => pure ()
  | some page => .tell (.respond (.blockPage reason page) (sendAll page env.writes).calls)

def blockedLabel : DecisionReason → String
  | .policy => "blocked_policy"
  | .network => "blocked_private"
  | .reputation => "blocked_reputation"
  | .port => "blocked_port"
  | .none => "blocked"

/-- `extras_add`, on the text of a 96-byte `LogExtras`. -/
def extrasAdd (text token : List Byte) : List Byte :=
  let need := token.length + if text.isEmpty then 0 else 1
  if text.length + need + 1 > 96 then text
  else if text.isEmpty then token else text ++ ch ' ' :: token

/-- The variables `cleanup` reads. -/
structure Outcome where
  host : List Byte := [ch '-']
  decision : String := "client_closed"
  status : Nat := 0
  byteCount : Nat := 0
  cacheState : Option String := none
  sig : DecisionInputs := {}
  riskKnown : Bool := false
  extras : List Byte := []
  deriving DecidableEq, Repr

def Outcome.withStatus (o : Outcome) (decision : String) (status : Nat) : Outcome := { o with decision, status }

/-- The block page a decision calls for. -/
def block (env : ClientEnv) (requestId : UInt64) (reason : DecisionReason) (o : Outcome) : Handler Outcome := do
  sendBlockPage env requestId reason
  return o.withStatus (blockedLabel reason) 403

/-! ## May we talk to this destination at all? -/

/-- The signal and the log tokens of a reputation result. -/
def Outcome.noteReputation (o : Outcome) (r : ReputationResult) : Outcome :=
  let extras := extrasAdd o.extras (bytes "rep=" ++ bytes (reputationVerdictName r.verdict))
  { o with
    sig := { o.sig with reputationChecked := true, reputation := r.verdict }
    extras := if r.verdict = .unavailable then
        extrasAdd extras (bytes "rep_reason=" ++ bytes (reputationReasonName r.reason)) else extras }

/-- The part of `check_destination` behind the policy: real hostnames only. -/
def checkReputation (env : ClientEnv) (host : List Byte) (o : Outcome) : Handler Outcome := do
  let on ← Query.reputationIsEnabled.ask
  if on && !hostnameIsLocalName host && !env.hostIsNumericAddress host then
    let r ← (Query.reputationCheck host).ask
    return o.noteReputation r
  else return o

/-- `check_destination`; its `Decision` is `decisionEvaluate` of the signals
it leaves. -/
def checkDestination (env : ClientEnv) (host : List Byte) (o : Outcome) : Handler Outcome := do
  let policy ← (Query.policyCheckHost host).ask
  if policy ≠ PolicyDecision.allow then return { o with sig := { o.sig with policyDenied := true } }
  else checkReputation env host o

/-- Block, if the signals say so, or go on. -/
def unlessBlocked (env : ClientEnv) (requestId : UInt64) (o : Outcome) (next : Handler Outcome) : Handler Outcome :=
  if (decisionEvaluate o.sig).action = .block then block env requestId (decisionEvaluate o.sig).reason o else next

/-- The origin turned out to be on a network we never connect to. -/
def blockNetwork (env : ClientEnv) (requestId : UInt64) (o : Outcome) : Handler Outcome :=
  let o := { o with sig := { o.sig with networkUnsafe := true } }
  block env requestId (decisionEvaluate o.sig).reason o

def badGateway (env : ClientEnv) (status : FetchStatus) (o : Outcome) : Handler Outcome := do
  sendErrorResponse env 502 "Bad Gateway" (bodyLine "502 Bad Gateway: " (fetchStatusToString status))
  return o.withStatus "bad_gateway" 502

/-! ## CONNECT -/

/-- The origin is connected: tell the client, and relay. `fd` is its socket. -/
def openTunnel (g : Globals) (env : ClientEnv) (fd : Option Fd) (o : Outcome) : Handler Outcome := do
  let close := fd.toList.map fun fd => ClientEvent.conn (.close fd)
  let sent := sendAll establishedText env.writes
  .tell (.respond .established sent.calls)
  if sent.rc = none then
    .tells close
    return o.withStatus "client_closed" 0
  else
    let st := relayTunnel g.tunnelIdleSeconds env.tunnel sent.rest env.tunnelOriginWrites
    .tells (st.events.map .tunnel ++ close)
    return { o.withStatus "allowed" 200 with byteCount := st.total }

def connectOrigin (g : Globals) (env : ClientEnv) (requestId : UInt64) (target : ParsedConnect) (o : Outcome) :
    Handler Outcome := do
  let conn := originConnect g.allowPrivate env.connect target.host target.port
  .tells (.originConnect target.host target.port :: conn.trace.map .conn)
  if conn.status = .errUnsafeAddress then blockNetwork env requestId o
  else if conn.status ≠ .ok then badGateway env conn.status o
  else openTunnel g env conn.outFd o

/-- `handle_connect` once the request has been read: only the HTTPS port, and
only a destination that may be talked to. -/
def connectTarget (g : Globals) (env : ClientEnv) (requestId : UInt64) (target : ParsedConnect) (o : Outcome) :
    Handler Outcome :=
  let o := { o with riskKnown := true }
  if target.port ≠ g.connectPort then
    let o := { o with sig := { o.sig with portDenied := true } }
    block env requestId (decisionEvaluate o.sig).reason o
  else do
    let o ← checkDestination env target.host o
    unlessBlocked env requestId o (connectOrigin g env requestId target o)

def handleConnect (g : Globals) (env : ClientEnv) (requestId : UInt64) (line : List Byte)
    (rest : List (RecvOutcome 1)) (o : Outcome) : Handler Outcome :=
  match parseConnectRequest line with
  | .error ps => do
    sendErrorResponse env 400 "Bad Request" (bodyLine "400 Bad Request: " (parseStatusToString ps))
    return o.withStatus "bad_request" 400
  | .ok target =>
    let o := { o with host := target.host }
    match (consumeRequestHeaders rest).1 with
    | .ok => connectTarget g env requestId target o
    | .timeout => do
      sendErrorResponse env 408 "Request Timeout" (bytes "408 Request Timeout: CONNECT headers incomplete.\n")
      return o.withStatus "timeout" 408
    | .tooLarge => do
      sendErrorResponse env 400 "Bad Request" (bytes "400 Bad Request: CONNECT headers too large.\n")
      return o.withStatus "bad_request" 400
    | .closed | .error | .badBytes => pure (o.withStatus "client_closed" 0)

/-! ## Plain URLs -/

/-- The key a URL is cached under; only plain URLs have one. -/
def cacheKeyOf (url : ParsedUrl) : Option (List Byte) :=
  if url.path.contains (ch '?') then none else cacheMakeKey cacheKeyMax url.host url.port url.path

/-- What a finished fetch gives the cache to store, if anything. -/
def cacheCandidate (r : FetchResult) : Option (List Byte × Nat) :=
  if r.status = .ok then
    r.stats.capture.bind fun data =>
      let copy := data.take r.stats.captureLen
      let verdict := cacheEvaluateResponse copy
      if verdict.cacheable then some (copy, verdict.ttlSeconds) else none
  else none

def storeFetched (key : Option (List Byte)) (r : FetchResult) (o : Outcome) : Handler Outcome :=
  match key, cacheCandidate r with
  | some key, some (data, ttl) => do
    let stored ← (Query.cacheStore key data ttl).ask
    return if stored then { o with cacheState := some "cache=stored" } else o
  | _, _ => pure o

/-- The response after `fetch_and_relay`, where it is still safe to send one. -/
def replyFetched (env : ClientEnv) (requestId : UInt64) (r : FetchResult) (o : Outcome) : Handler Outcome :=
  let relayError := o.withStatus "relay_error" r.stats.originStatus
  match r.status with
  | .errUnsafeAddress => blockNetwork env requestId o
  | .errDns | .errConnect => badGateway env r.status o
  | .errTimeout =>
    if r.stats.bytesRelayed = 0 then do
      sendErrorResponse env 504 "Gateway Timeout" (bytes "504 Gateway Timeout: The origin did not respond in time.\n")
      return o.withStatus "gateway_timeout" 504
    else pure relayError
  | .errRecv =>
    if r.stats.bytesRelayed = 0 then do
      sendErrorResponse env 502 "Bad Gateway" (bytes "502 Bad Gateway: The origin sent no response.\n")
      return o.withStatus "bad_gateway" 502
    else pure relayError
  | .ok => pure (o.withStatus "allowed" r.stats.originStatus)
  | .errSend => pure relayError

/-- What a fetch does to the world outside, in order. -/
def fetchEvents (url : ParsedUrl) (r : FetchResult) : List ClientEvent :=
  .originConnect url.host url.port :: r.conn.map .conn ++ r.toOrigin.map .toOrigin ++
    r.toClient.map (.relay .origin) ++ (r.originFd.toList.map fun fd => .conn (.close fd)) ++
    [.fetched url r.status r.received]

/-- `key` is the cache key, when the cache may be used for this request. -/
def fetchPlain (g : Globals) (env : ClientEnv) (requestId : UInt64) (url : ParsedUrl) (key : Option (List Byte))
    (o : Outcome) : Handler Outcome := do
  let r := fetchAndRelay g.allowPrivate env.fetch url (if key.isSome then cacheDefaultMaxEntryBytes else 0)
  .tells (fetchEvents url r)
  let o ← storeFetched key r { o with byteCount := r.stats.bytesRelayed }
  replyFetched env requestId r o

/-- A copy served from memory. -/
def serveCached (env : ClientEnv) (data : List Byte) (o : Outcome) : Handler Outcome := do
  .tells ((sendAll data env.writes).calls.map (.relay .cached))
  return { o.withStatus "allowed" 200 with byteCount := data.length, cacheState := some "cache=hit" }

/-- What a lookup answers decides whether the origin is asked. -/
def afterLookup (g : Globals) (env : ClientEnv) (requestId : UInt64) (url : ParsedUrl) (key : List Byte) (o : Outcome) :
    Option (List Byte) → Handler Outcome
  | some data => serveCached env data o
  | none => fetchPlain g env requestId url (some key) { o with cacheState := some "cache=miss" }

def servePlain (g : Globals) (env : ClientEnv) (requestId : UInt64) (url : ParsedUrl) (o : Outcome) :
    Handler Outcome := do
  let on ← Query.cacheIsEnabled.ask
  if !on then fetchPlain g env requestId url none o
  else match cacheKeyOf url with
    | none => fetchPlain g env requestId url none { o with cacheState := some "cache=bypass" }
    | some key => (Query.cacheLookup key).ask >>= afterLookup g env requestId url key o

def handlePlain (g : Globals) (env : ClientEnv) (requestId : UInt64) (line : List Byte) : Handler Outcome :=
  match parseHttpUrl line with
  | .error ps => do
    sendErrorResponse env 400 "Bad Request" (bodyLine "400 Bad Request: " (parseStatusToString ps))
    return Outcome.withStatus {} "bad_request" 400
  | .ok url => do
    let o ← checkDestination env url.host { host := url.host, riskKnown := true }
    unlessBlocked env requestId o (servePlain g env requestId url o)

/-! ## `handle_client` -/

def serveClient (g : Globals) (env : ClientEnv) (requestId : UInt64) : Handler Outcome :=
  let (status, line, rest) := readRequestLine env.client
  match status with
  | .tooLarge => do
    sendErrorResponse env 413 "Payload Too Large" (bytes "413 Payload Too Large: Request URL exceeds 2048B.\n")
    return Outcome.withStatus {} "too_large" 413
  | .timeout => do
    sendErrorResponse env 408 "Request Timeout" (bytes "408 Request Timeout: No complete request line received.\n")
    return Outcome.withStatus {} "timeout" 408
  | .badBytes => do
    sendErrorResponse env 400 "Bad Request"
      (bytes "400 Bad Request: Request contains forbidden control characters.\n")
    return Outcome.withStatus {} "bad_request" 400
  | .closed | .error => pure {}
  | .ok =>
    let line := stripLine line
    if requestIsConnect line then
      handleConnect g env requestId line rest { extras := extrasAdd [] (bytes "method=connect") }
    else handlePlain g env requestId line

/-- The record written at `cleanup`. -/
def logRecord (requestId : UInt64) (durationMs : Int) (o : Outcome) : LogRecord :=
  let extras := match o.cacheState with
    | none => o.extras
    | some state => extrasAdd o.extras (bytes state)
  { requestId, host := o.host, decision := o.decision, status := o.status, byteCount := o.byteCount, durationMs
    extras := if o.riskKnown then
        extrasAdd extras (bytes "risk=" ++ decimal (decisionEvaluate o.sig).riskScore) else extras }

/-- `handle_client`; `none` stands for a NULL argument. -/
def handleClient (g : Globals) : Option ClientEnv → Handler Unit
  | none => Query.leave.ask
  | some env => do
    .tell .freeArgs
    let requestId ← Query.nextRequestId.ask
    let o ← serveClient g env requestId
    .tell (.log (logRecord requestId env.durationMs o))
    .tell .drainAndClose
    Query.leave.ask

end SecureProxy
