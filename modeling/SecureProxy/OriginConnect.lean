/-
`origin_connect` (`origin_client.c`): resolve a host once, refuse the whole
answer if one of its addresses is unsafe, and connect to the first address
that takes a connection.

The resolver and the socket calls are not ours: `ConnectEnv` holds what they
answer, the two `getaddrinfo` steps as a whole and the calls made for the
address at each position of the answer. The trace lists the calls that can
be seen from outside, in order.
-/
import SecureProxy.Address
import SecureProxy.Policy

namespace SecureProxy

open Bytes

abbrev Fd := Nat

/-- `FetchStatus`. -/
inductive FetchStatus where
  | ok
  | errDns
  | errConnect
  | errSend
  | errRecv
  | errUnsafeAddress
  | errTimeout
  deriving DecidableEq, Repr

def fetchStatusToString : FetchStatus → String
  | .ok => "OK"
  | .errDns => "DNS resolution failed"
  | .errConnect => "Could not connect to origin (refused or timed out)"
  | .errSend => "Failed to send request or relay response to output"
  | .errRecv => "Failed to read response from origin"
  | .errUnsafeAddress => "Destination address is not permitted"
  | .errTimeout => "Origin did not respond in time"

/-- How a non-blocking `connect` returns. -/
inductive ConnectRc where
  | ok
  | inProgress
  | err
  deriving DecidableEq, Repr

/-- What the calls made for one address answer. -/
structure Attempt where
  /-- `socket`: the descriptor, or `none` for a failure. -/
  socket : Option Fd
  /-- `fcntl(F_GETFL)` and `fcntl(F_SETFL)` before the connect. -/
  nonblock : Bool
  connect : ConnectRc
  /-- `poll` reports the socket writable before the timeout. -/
  writable : Bool
  /-- `getsockopt(SO_ERROR)` succeeds and reports no error. -/
  soErrorClear : Bool
  /-- `getpeername`: the peer, or `none` for a failure. -/
  peer : Option Sockaddr

/-- `getaddrinfo`: `none` for an error, else the answer list. -/
structure ConnectEnv where
  numeric : Option (List Sockaddr)
  dns : Option (List Sockaddr)
  attempt : Nat → Attempt

inductive ConnEvent where
  /-- `getaddrinfo`, with `AI_NUMERICHOST` or as a DNS lookup. -/
  | getaddrinfo (numericHost : Bool) (host : List Byte) (port : List Byte)
  | socket (fd : Fd)
  | connect (fd : Fd) (addr : Sockaddr)
  | close (fd : Fd)
  deriving DecidableEq

/-- `connect_with_timeout`: whether `connect` was called, and the result. -/
def connectWithTimeout (a : Attempt) : Bool × Bool :=
  if !a.nonblock then (false, false)
  else match a.connect with
    | .ok => (true, true)
    | .err => (true, false)
    | .inProgress => (true, a.writable && a.soErrorClear)

def allAddressesSafe (allowPrivate : Bool) (list : List Sockaddr) : Bool :=
  allowPrivate || list.all fun a => !addressIsUnsafe a

/-- What `origin_connect` leaves: `outFd` is `*out_fd`, `none` for -1. -/
structure ConnectResult where
  status : FetchStatus
  outFd : Option Fd
  trace : List ConnEvent

/-- The calls made on a fresh socket for `addr`, before it is given up. -/
def attemptTrace (a : Attempt) (fd : Fd) (addr : Sockaddr) : List ConnEvent :=
  if (connectWithTimeout a).1 then [.socket fd, .connect fd addr] else [.socket fd]

/-- The connection is up, but not with a peer that may be talked to. -/
def peerRefused (allowPrivate : Bool) (a : Attempt) : Bool :=
  !allowPrivate && match a.peer with
    | none => true
    | some peer => addressIsUnsafe peer

/-- The loop over the answer list, at position `i` of it. -/
def connectLoop (allowPrivate : Bool) (attempt : Nat → Attempt) : Nat → List Sockaddr → ConnectResult
  | _, [] => ⟨.errConnect, none, []⟩
  | i, addr :: list =>
    if !allowPrivate && addressIsUnsafe addr then ⟨.errUnsafeAddress, none, []⟩
    else
      let a := attempt i
      match a.socket with
      | none => connectLoop allowPrivate attempt (i + 1) list
      | some fd =>
        if (connectWithTimeout a).2 then
          if peerRefused allowPrivate a then
            ⟨.errUnsafeAddress, none, attemptTrace a fd addr ++ [.close fd]⟩
          else ⟨.ok, some fd, attemptTrace a fd addr⟩
        else
          let r := connectLoop allowPrivate attempt (i + 1) list
          { r with trace := attemptTrace a fd addr ++ .close fd :: r.trace }

/-- The one answer `origin_connect` goes on with: the numeric one, else DNS. -/
def ConnectEnv.answer (env : ConnectEnv) : Option (List Sockaddr) := env.numeric.orElse fun _ => env.dns

/-- The lookups made for it. -/
def ConnectEnv.lookups (env : ConnectEnv) (host : List Byte) (port : Nat) : List ConnEvent :=
  .getaddrinfo true host (decimal port) ::
    if env.numeric.isNone then [.getaddrinfo false host (decimal port)] else []

def originConnect (allowPrivate : Bool) (env : ConnectEnv) (host : List Byte) (port : Nat) : ConnectResult :=
  if !allowPrivate && hostnameIsLocalName host then ⟨.errUnsafeAddress, none, []⟩
  else match env.answer with
    | none | some [] => ⟨.errDns, none, env.lookups host port⟩
    | some list =>
      if !allAddressesSafe allowPrivate list then ⟨.errUnsafeAddress, none, env.lookups host port⟩
      else
        let r := connectLoop allowPrivate env.attempt 0 list
        { r with trace := env.lookups host port ++ r.trace }

end SecureProxy
