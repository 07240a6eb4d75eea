/-
`fetch_and_relay` (`origin_client.c`): connect to the origin, send the
request, stream the answer to the client, and keep a bounded copy of it for
the cache. The statistics are always asked for, as the proxy does.

The copy is the list of its bytes; `capture_len` and the capacity are kept
apart from it, as the code keeps them. A counter of bytes is a `Nat`: no run
relays 2^64 of them. The capacity, which doubles, wraps like the `size_t` it is.
-/
import SecureProxy.Lib.Word
import SecureProxy.OriginConnect
import SecureProxy.ParserFacts
import SecureProxy.Socket

namespace SecureProxy

open Bytes Word

def relayChunkSize : Nat := 8192

/-- `parse_origin_status`: the code in an "HTTP/x.y NNN" status line, or 0. -/
def parseOriginStatus (buf : List Byte) : Nat :=
  if buf.length < 12 || buf.take 5 != bytes "HTTP/" || buf[8]? != some (ch ' ') then 0
  else
    let code := (buf.drop 9).take 3
    if !code.all isDigit then 0 else numVal code

/-- `FetchStats`, without the limit the caller sets. -/
structure FetchStats where
  bytesRelayed : Nat := 0
  originStatus : Nat := 0
  capture : Option (List Byte) := none
  captureLen : Nat := 0
  captureOverflow : Bool := false
  deriving DecidableEq, Repr

/-- What the world does to a fetch. `realloc n` tells whether the copy may
grow when it holds `n` bytes. -/
structure FetchEnv where
  conn : ConnectEnv
  requestWrites : List WriteOutcome
  chunks : List (RecvOutcome relayChunkSize)
  clientWrites : List WriteOutcome
  realloc : Nat → Bool

/-- The request sent to the origin. -/
def originRequest (url : ParsedUrl) : List Byte :=
  bytes "GET " ++ url.path ++ bytes " HTTP/1.0\r\nHost: " ++ url.host ++
    bytes "\r\nConnection: close\r\n\r\n"

/-- `snprintf` never truncates the request: it fits the buffer with its NUL. -/
theorem originRequest_fits {url : ParsedUrl} (h : UrlOk url) :
    (originRequest url).length < maxHostLen + maxPathLen + 64 := by
  have hh := h.hostLen
  have hp := h.pathLen
  have h1 : (bytes "GET ").length = 4 := length_bytes _
  have h2 : (bytes " HTTP/1.0\r\nHost: ").length = 17 := length_bytes _
  have h3 : (bytes "\r\nConnection: close\r\n\r\n").length = 23 := length_bytes _
  simp only [originRequest, List.length_append, h1, h2, h3]
  omega

/-! ## The bounded copy -/

/-- `while (want < need) want *= 2`. -/
def doubleTo : Nat → Nat → Nat → Nat
  | 0, want, _ => want
  | fuel + 1, want, need => if want < need then doubleTo fuel (want * 2 % wordSize) need else want

/-- The capacity `realloc` is asked for; doubling from 16384, `need` rounds
are enough. -/
def wantedCap (cap need limit : Nat) : Nat :=
  min (doubleTo need (if cap = 0 then 16384 else cap * 2 % wordSize) need) limit

/-- The copy is given up for good. -/
def FetchStats.dropCapture (s : FetchStats) : FetchStats :=
  { s with capture := none, captureLen := 0, captureOverflow := true }

/-- Adds a chunk to the copy: the statistics and the capacity after it. -/
def captureChunk (limit : Nat) (realloc : Nat → Bool) (s : FetchStats) (cap : Nat) (chunk : List Byte) :
    FetchStats × Nat :=
  if limit = 0 || s.captureOverflow then (s, cap)
  else if s.captureLen + chunk.length > limit then (s.dropCapture, cap)
  else if s.captureLen + chunk.length > cap && !realloc s.captureLen then (s.dropCapture, cap)
  else
    let cap' := if s.captureLen + chunk.length > cap then wantedCap cap (s.captureLen + chunk.length) limit else cap
    ({ s with capture := some ((s.capture.getD []).take s.captureLen ++ chunk),
              captureLen := s.captureLen + chunk.length }, cap')

/-! ## The relay loop -/

structure RelayState where
  firstChunk : Bool := true
  stats : FetchStats := {}
  cap : Nat := 0
  writes : List WriteOutcome
  /-- The calls made on the client's descriptor so far. -/
  calls : List WriteCall := []
  /-- The bytes received from the origin so far. -/
  received : List Byte := []

/-- Why the loop ended. -/
inductive RelayEnd where
  | sendFailed
  | eof
  | timeout
  | recvFailed
  deriving DecidableEq, Repr

/-- What a chunk does to the state before it is relayed. -/
def RelayState.noteStatus (st : RelayState) (chunk : List Byte) : RelayState :=
  if st.firstChunk then
    { st with firstChunk := false, stats := { st.stats with originStatus := parseOriginStatus chunk } }
  else st

/-- What a relayed chunk does to the statistics. -/
def RelayState.relayed (limit : Nat) (realloc : Nat → Bool) (st : RelayState) (chunk : List Byte) : RelayState :=
  let stats := { st.stats with bytesRelayed := st.stats.bytesRelayed + chunk.length }
  let (stats, cap) := captureChunk limit realloc stats st.cap chunk
  { st with stats, cap }

def relayLoop (limit : Nat) (realloc : Nat → Bool) :
    List (RecvOutcome relayChunkSize) → RelayState → RelayEnd × RelayState
  | [], st | .eagain :: _, st => (.timeout, st)
  | .eof :: _, st => (.eof, st)
  | .eintr :: _, st | .err :: _, st => (.recvFailed, st)
  | .data chunk :: rest, st =>
    let st := { st.noteStatus chunk.bytes with received := st.received ++ chunk.bytes }
    let sent := sendAll chunk.bytes st.writes
    let st := { st with writes := sent.rest, calls := st.calls ++ sent.calls }
    match sent.rc with
    | none => (.sendFailed, st)
    | some _ => relayLoop limit realloc rest (st.relayed limit realloc chunk.bytes)

/-- The status the end of the loop stands for. An origin that closes without
a byte is a failed fetch, not an empty success. -/
def relayStatus (bytesRelayed : Nat) : RelayEnd → FetchStatus
  | .sendFailed => .errSend
  | .eof => if bytesRelayed = 0 then .errRecv else .ok
  | .timeout => .errTimeout
  | .recvFailed => .errRecv

/-! ## `fetch_and_relay` -/

structure FetchResult where
  status : FetchStatus
  stats : FetchStats
  /-- The resolver and socket calls of `origin_connect`. -/
  conn : List ConnEvent
  /-- The origin's socket, closed before the return. -/
  originFd : Option Fd
  /-- The calls of `write` on the origin's socket. -/
  toOrigin : List WriteCall
  /-- The calls of `write` on the client's descriptor. -/
  toClient : List WriteCall
  /-- The bytes received from the origin. -/
  received : List Byte

/-- Never hand a partial response to the cache. -/
def FetchStats.settle (s : FetchStats) (status : FetchStatus) : FetchStats :=
  if status = .ok then s else { s with capture := none, captureLen := 0 }

def fetchAndRelay (allowPrivate : Bool) (env : FetchEnv) (url : ParsedUrl) (captureLimit : Nat) : FetchResult :=
  let conn := originConnect allowPrivate env.conn url.host url.port
  match conn.status, conn.outFd with
  | .ok, some fd =>
    let request := sendAll (originRequest url) env.requestWrites
    match request.rc with
    | none =>
      { status := .errSend, stats := {}, conn := conn.trace, originFd := some fd, toOrigin := request.calls, toClient := [],
        received := [] }
    | some _ =>
      let (ended, st) := relayLoop captureLimit env.realloc env.chunks { writes := env.clientWrites }
      let status := relayStatus st.stats.bytesRelayed ended
      { status, stats := st.stats.settle status, conn := conn.trace, originFd := some fd,
        toOrigin := request.calls, toClient := st.calls, received := st.received }
  | status, _ => { status, stats := {}, conn := conn.trace, originFd := none, toOrigin := [], toClient := [], received := [] }

end SecureProxy
