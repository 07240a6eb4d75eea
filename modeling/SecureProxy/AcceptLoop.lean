/-
The body of the accept loop (`main` in `proxy.c`): what becomes of every
connection that is accepted.

A connection is a program (`Lib.Prog`). The main thread runs it as far as the
start of its worker, or to its end where there is none; from there on it is
the worker's `handle_client`. The connections are a pool over the globals of
the server. The main thread has one of them in hand at a time, and stands at
`.admitting` while it does; all else it does is `mainStep`.
-/
import SecureProxy.Server

namespace SecureProxy

open Bytes Progs

inductive LoopQuery where
  /-- The test of `g_active_clients` against its bound, with the count. -/
  | enter
  /-- `malloc` of the `ClientArgs`. -/
  | malloc
  | pthreadCreate
  /-- The main thread goes on to the next connection. -/
  | next
  | client (q : Query)
  deriving DecidableEq, Repr

abbrev LoopQuery.Answer : LoopQuery → Type
  | .enter => Bool
  | .malloc => Bool
  | .pthreadCreate => Bool
  | .next => Unit
  | .client q => q.Answer

inductive LoopEvent where
  /-- The main thread's `close` of the client's socket. -/
  | close
  | client (e : ClientEvent)
  deriving DecidableEq

abbrev Connection := Prog LoopQuery.Answer LoopEvent

def LoopQuery.ask (q : LoopQuery) : Connection q.Answer := Prog.query q

/-- What a worker does, as a part of its connection. -/
def ofClient {α : Type} : Handler α → Connection α
  | .pure a => .pure a
  | .say e k => .say (.client e) (ofClient k)
  | .ask q k => .ask (.client q) fun a => ofClient (k a)

/-- The record of a connection that gets no worker. -/
def unservedRecord (requestId : UInt64) (decision : String) (status : Nat) : LogRecord :=
  { requestId, host := bytes "-", decision, status, byteCount := 0, durationMs := 0, extras := [] }

/-- Too many clients. -/
def refuseClient (env : ClientEnv) : Connection Unit := do
  ofClient (sendErrorResponse env 503 "Service Unavailable"
    (bytes "503 Service Unavailable: Maximum concurrent connections reached.\n"))
  let requestId ← (LoopQuery.client .nextRequestId).ask
  .tell (.client (.log (unservedRecord requestId "overloaded" 503)))
  .tell .close
  LoopQuery.next.ask

/-- No memory, or no thread: `args` is the free of what was allocated. -/
def abandonClient (args : List LoopEvent) : Connection Unit := do
  let requestId ← (LoopQuery.client .nextRequestId).ask
  .tell (.client (.log (unservedRecord requestId "internal_error" 0)))
  .tell .close
  .tells args
  (LoopQuery.client .leave).ask
  LoopQuery.next.ask

/-- A client that was counted: its worker is started, and goes on with it. -/
def startClient (g : Globals) (env : ClientEnv) : Connection Unit := do
  let args ← LoopQuery.malloc.ask
  if args then
    let started ← LoopQuery.pthreadCreate.ask
    if started then ofClient (handleClient g (some env)) else abandonClient [.client .freeArgs]
  else abandonClient []

/-- An accepted connection, to its end. -/
def acceptClient (g : Globals) (env : ClientEnv) : Connection Unit := do
  let admitted ← LoopQuery.enter.ask
  if admitted then startClient g env else refuseClient env

/-! ## The pool -/

/-- What the globals answer a connection. -/
def serveLoop (s : ServerState) : (q : LoopQuery) → q.Answer → Int → ServerState → Prop
  | .enter, a, _, s' =>
    if s.activeClients ≥ maxConcurrentClients then a = false ∧ s' = s
    else a = true ∧ s' = { s with activeClients := s.activeClients + 1 }
  | .malloc, _, _, s' => s' = s
  | .pthreadCreate, a, _, s' => s' = if a then { s with main := .testing } else s
  | .next, _, _, s' => s' = { s with main := .testing }
  | .client q, a, now, s' => s.main ≠ .exited ∧ serveGlobals s q a now s'

/-- The main thread has a connection in hand. -/
def MainPc.inBody : MainPc → Bool
  | .admitting | .refusing | .counted | .undoing => true
  | _ => false

/-- The moves of the main thread, and of the signal handler, that are not part
of a connection. -/
def MainMove.elsewhere (s : ServerState) : MainMove → Bool
  | .signal => true
  | .go => !s.main.inBody && s.main != .accepting
  | .fail => !s.main.inBody

/-- The connections of a server with the settings `g`; `accept` brings a new
one. -/
def acceptLoop (g : Globals) : Service LoopQuery.Answer LoopEvent Unit ServerState ClientEnv Int where
  prog := acceptClient g
  start s _ s' := s.main = .accepting ∧ s' = { s with main := .admitting }
  serve := serveLoop
  outside s s' := ∃ m : MainMove, m.elsewhere s = true ∧ s' = mainStep s m

abbrev LoopPool := Pool LoopQuery.Answer LoopEvent Unit ServerState ClientEnv Int

end SecureProxy
