/-
`relay_tunnel` (`proxy.c`): bytes in both directions between the client and
the origin, until both have finished or the tunnel is idle.

A round is what one `poll` reports: for each side whether it is readable, and
then what `recv` on it answers. A round that reports a side already finished
cannot happen (its descriptor is negative), so that part of it is ignored. A
list of rounds that has run out is an idle tunnel.
-/
import SecureProxy.Socket

namespace SecureProxy

open Bytes

def tunnelBufLen : Nat := 16384
def tunnelHalfCloseSeconds : Nat := 5

/-- The end of a tunnel. -/
inductive Side where
  | client
  | origin
  deriving DecidableEq, Repr

def Side.other : Side → Side
  | .client => .origin
  | .origin => .client

inductive PollOutcome where
  /-- The sides that are readable (or hung up, or in error), with what `recv` answers. -/
  | ready (client origin : Option (RecvOutcome tunnelBufLen))
  | timeout
  | eintr
  | err
  deriving DecidableEq

inductive TunnelEvent where
  | received (src : Side) (chunk : List Byte)
  | written (dst : Side) (call : WriteCall)
  | shutdownWrite (dst : Side)
  deriving DecidableEq, Repr

/-- `open_dir`, `total` and `timeout_ms`, what `write` will answer on each
side, and what has been done. -/
structure TunnelState where
  clientOpen : Bool := true
  originOpen : Bool := true
  total : Nat := 0
  timeoutMs : Nat
  clientWrites : List WriteOutcome
  originWrites : List WriteOutcome
  events : List TunnelEvent := []
  deriving DecidableEq, Repr

namespace TunnelState

/-- The direction that starts at a side is still open. -/
def isOpen (st : TunnelState) : Side → Bool
  | .client => st.clientOpen
  | .origin => st.originOpen

def writes (st : TunnelState) : Side → List WriteOutcome
  | .client => st.clientWrites
  | .origin => st.originWrites

def setWrites (st : TunnelState) (rest : List WriteOutcome) : Side → TunnelState
  | .client => { st with clientWrites := rest }
  | .origin => { st with originWrites := rest }

def note (st : TunnelState) (es : List TunnelEvent) : TunnelState := { st with events := st.events ++ es }

/-- A side has finished: its peer learns it, and the other direction has a
short time left. -/
def finish (st : TunnelState) (src : Side) : TunnelState :=
  let st := st.note [.shutdownWrite src.other]
  let st := match src with
    | .client => { st with clientOpen := false }
    | .origin => { st with originOpen := false }
  { st with timeoutMs := min st.timeoutMs (tunnelHalfCloseSeconds * 1000) }

/-- One direction of a round, and whether the tunnel goes on. -/
def relayFrom (st : TunnelState) (src : Side) : Option (RecvOutcome tunnelBufLen) → Bool × TunnelState
  | none => (true, st)
  | some (.data chunk) =>
    let sent := sendAll chunk.bytes (st.writes src.other)
    let st := (st.setWrites sent.rest src.other).note
      (.received src chunk.bytes :: sent.calls.map (.written src.other))
    match sent.rc with
    | none => (false, st)
    | some _ => (true, { st with total := st.total + chunk.bytes.length })
  | some .eof | some .err => (true, st.finish src)
  | some .eagain | some .eintr => (true, st)

end TunnelState

/-- The part of a report a side still polled can have. -/
def polled (isOpen : Bool) (r : Option (RecvOutcome tunnelBufLen)) : Option (RecvOutcome tunnelBufLen) :=
  if isOpen then r else none

/-- The loop of `relay_tunnel`. -/
def tunnelLoop : List PollOutcome → TunnelState → TunnelState
  | [], st => st
  | round :: rounds, st =>
    if !st.clientOpen && !st.originOpen then st
    else match round with
      | .timeout | .err => st
      | .eintr => tunnelLoop rounds st
      | .ready c o =>
        let (on, st') := st.relayFrom .client (polled st.clientOpen c)
        if !on then st'
        else
          let (on, st'') := st'.relayFrom .origin (polled st.originOpen o)
          if !on then st'' else tunnelLoop rounds st''

/-- `relay_tunnel`, whose value is `total`. -/
def relayTunnel (idleSeconds : Nat) (rounds : List PollOutcome) (clientWrites originWrites : List WriteOutcome) :
    TunnelState :=
  tunnelLoop rounds { timeoutMs := idleSeconds * 1000, clientWrites, originWrites }

end SecureProxy
