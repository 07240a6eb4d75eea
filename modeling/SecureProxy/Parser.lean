/-
The request parser (`request_parser.c`): `parse_http_url` for a plain URL
line and `parse_connect_request` for a `CONNECT` line.

A line is the list of its bytes, without the terminating NUL; the pointers a
caller passes are never NULL here. `PARSE_OK` is `Except.ok`, every other
`ParseStatus` an error. `memcpy` into `host[256]` and `path[2048]` is the
list itself: the length tests the code makes before it writes are kept.
-/
import SecureProxy.Lib.Bytes
import SecureProxy.Lib.Checks

namespace SecureProxy

open Bytes Checks

def maxUrlLen : Nat := 2048
def maxHostLen : Nat := 256
def maxPathLen : Nat := 2048

/-- `ParseStatus`, less `PARSE_OK`. -/
inductive ParseStatus where
  | overlong
  | hostTooLong
  | invalidScheme
  | credentials
  | emptyHost
  | invalidHost
  | invalidPort
  | controlChar
  | fragment
  | malformed
  deriving DecidableEq, Repr

def parseStatusToString : ParseStatus → String
  | .overlong => "URL exceeds maximum length (2048 bytes)"
  | .hostTooLong => "Host exceeds maximum length (256 bytes)"
  | .invalidScheme => "Unsupported or missing URL scheme (only http:// supported)"
  | .credentials => "Embedded credentials are not allowed"
  | .emptyHost => "Host component is empty"
  | .invalidHost => "Host contains invalid characters"
  | .invalidPort => "Port is malformed, zero, or out of range (1-65535)"
  | .controlChar => "URL contains forbidden control characters or whitespace"
  | .fragment => "URL fragments (#) are not permitted"
  | .malformed => "Malformed URL"

structure ParsedUrl where
  host : List Byte
  port : Nat
  path : List Byte
  deriving DecidableEq, Repr

structure ParsedConnect where
  host : List Byte
  port : Nat
  deriving DecidableEq, Repr

/-! ## `parse_http_url` -/

def scheme : List Byte := bytes "http://"

/-- The authority ends at the first '/' or '?'. -/
def inAuthority (c : Byte) : Bool := c != ch '/' && c != ch '?'

/-- The bytes both parsers admit in a host. -/
def isHostByte (c : Byte) : Bool := isAlnum c || c == ch '.' || c == ch '-' || c == ch '_'

/-- The colon loop of an authority that is not bracketed: the offset of the
one ':' there may be. -/
def findColon : List Byte → Nat → Option Nat → Except ParseStatus (Option Nat)
  | [], _, colon => .ok colon
  | c :: cs, i, colon =>
    if c = ch ':' then
      if colon.isSome then .error .malformed else findColon cs (i + 1) (some i)
    else findColon cs (i + 1) colon

/-- The offset of the port delimiter in the authority. After a '[' only a
':' directly behind the first ']' counts. -/
def portDelimiter (auth : List Byte) : Except ParseStatus (Option Nat) :=
  if auth.head? = some (ch '[') then
    match auth.findIdx? (· == ch ']') with
    | none => .error .invalidHost
    | some close => .ok (if auth[close + 1]? = some (ch ':') then some (close + 1) else none)
  else findColon auth 0 none

/-- The digit loop of a port in a URL, which stops at the first value past
65535. -/
def portLoop : List Byte → Nat → Except ParseStatus Nat
  | [], portVal => .ok portVal
  | d :: ds, portVal =>
    if !isDigit d then .error .invalidPort
    else if portVal * 10 + digitVal d > 65535 then .error .invalidPort
    else portLoop ds (portVal * 10 + digitVal d)

def parsePort (portStr : List Byte) : Except ParseStatus Nat := do
  check portStr.isEmpty .invalidPort
  let portVal ← portLoop portStr 0
  check (portVal == 0 || decide (portVal > 65535)) .invalidPort
  return portVal

/-- The host part of the authority, given its port delimiter. -/
def hostPart (auth : List Byte) : Option Nat → List Byte
  | some colon => auth.take colon
  | none => auth

/-- The port of the authority, 80 if it names none. -/
def portPart (auth : List Byte) : Option Nat → Except ParseStatus Nat
  | some colon => parsePort (auth.drop (colon + 1))
  | none => .ok 80

/-- The path of a URL from what follows its authority. -/
def urlPath : List Byte → Except ParseStatus (List Byte)
  | [] => .ok [ch '/']
  | c :: rest =>
    if c = ch '?' then do
      check (decide ((c :: rest).length + 2 > maxPathLen)) .overlong
      return ch '/' :: c :: rest
    else do
      check (decide ((c :: rest).length ≥ maxPathLen)) .overlong
      return c :: rest

def parseHttpUrl (rawUrl : List Byte) : Except ParseStatus ParsedUrl := do
  check rawUrl.isEmpty .malformed
  check (decide (rawUrl.length > maxUrlLen)) .overlong
  check (rawUrl.any fun uc => decide (uc ≤ 32) || uc == 127) .controlChar
  check (rawUrl.contains (ch '#')) .fragment
  check (decide (rawUrl.length < scheme.length)) .invalidScheme
  check ((rawUrl.take scheme.length).map toLower != scheme) .invalidScheme
  let p := rawUrl.drop scheme.length
  let auth := p.takeWhile inAuthority
  check auth.isEmpty .emptyHost
  check (auth.contains (ch '@')) .credentials
  let colon ← portDelimiter auth
  let host := hostPart auth colon
  check host.isEmpty .emptyHost
  check (decide (host.length ≥ maxHostLen)) .hostTooLong
  check (host.any fun c => !isHostByte c && c != ch '[' && c != ch ']') .invalidHost
  let port ← portPart auth colon
  let path ← urlPath (p.dropWhile inAuthority)
  return { host := host.map toLower, port, path }

/-! ## `parse_connect_request` -/

def connectMethod : List Byte := bytes "CONNECT "

def requestIsConnect (line : List Byte) : Bool := line.take connectMethod.length == connectMethod

/-- The scan of a `CONNECT` target for forbidden bytes and its one ':'. -/
def scanTarget : List Byte → Nat → Option Nat → Except ParseStatus (Option Nat)
  | [], _, colon => .ok colon
  | c :: cs, i, colon =>
    if c = ch '@' then .error .credentials
    else if c = ch '/' ∨ c = ch '?' ∨ c = ch '#' ∨ c = ch '[' ∨ c = ch ']' then .error .invalidHost
    else if c = ch ':' then
      if colon.isSome then .error .malformed else scanTarget cs (i + 1) (some i)
    else scanTarget cs (i + 1) colon

/-- `CONNECT` always needs an explicit port. -/
def requireColon : Option Nat → Except ParseStatus Nat
  | some colon => .ok colon
  | none => .error .invalidPort

/-- The optional version behind the target, and nothing after it. -/
def versionOk : List Byte → Bool
  | [] => true
  | _ :: ver => ver == bytes "HTTP/1.1" || ver == bytes "HTTP/1.0"

def parseConnectRequest (line : List Byte) : Except ParseStatus ParsedConnect := do
  check (decide (line.length > maxUrlLen)) .overlong
  check (line.any fun uc => decide (uc < 32) || uc == 127) .controlChar
  check (!requestIsConnect line) .malformed
  let rest := line.drop connectMethod.length
  check (rest.head? == some (ch ' ') || rest.isEmpty) .emptyHost
  let target := rest.takeWhile (· != ch ' ')
  check (!versionOk (rest.dropWhile (· != ch ' '))) .malformed
  let colon ← scanTarget target 0 none
  let hostLen ← requireColon colon
  let host := target.take hostLen
  check host.isEmpty .emptyHost
  check (decide (host.length ≥ maxHostLen)) .hostTooLong
  check (host.any fun c => !isHostByte c) .invalidHost
  let portStr := target.drop (hostLen + 1)
  check (portStr.isEmpty || decide (portStr.length > 5)) .invalidPort
  check (portStr.any fun c => !isDigit c) .invalidPort
  check (numVal portStr == 0 || decide (numVal portStr > 65535)) .invalidPort
  return { host := host.map toLower, port := numVal portStr }

example : parseHttpUrl (bytes "HTTP://Example.COM:8080/a?b") =
    .ok ⟨bytes "example.com", 8080, bytes "/a?b"⟩ := by decide

example : parseConnectRequest (bytes "CONNECT Example.com:443 HTTP/1.1") =
    .ok ⟨bytes "example.com", 443⟩ := by decide

end SecureProxy
