/-
The logger (`logger.c`): the three sanitisers, the line of a request, and the
file the lines are appended to.

A C string is the list of its bytes, `none` for NULL. The clock is an input of
every call, as `gmtime_r` breaks it down; the answers of `write` on the log
file are another, and any may occur.
-/
import SecureProxy.Socket

namespace SecureProxy

open Bytes

def logLineMax : Nat := 512
def logHostMax : Nat := 256
def logDecisionMax : Nat := 32
def logExtrasMax : Nat := 96
def logTimestampMax : Nat := 32

/-! ## The sanitisers -/

/-- `strstr(s, "://")`: what stands before the first one, and behind it. -/
def findScheme : List Byte → Option (List Byte × List Byte)
  | [] => none
  | b :: s =>
    if (bytes "://").isPrefixOf (b :: s) then some ([], (b :: s).drop 3)
    else (findScheme s).map fun (pre, post) => (b :: pre, post)

/-- What a scheme is dropped from: all up to the first "://". -/
def dropScheme (s : List Byte) : List Byte :=
  match findScheme s with
  | some (_, post) => post
  | none => s

/-- The bytes `strcspn` stops at. -/
def isDelimiter (c : Byte) : Bool := c == ch '/' || c == ch '?' || c == ch '#'

/-- The loop for the last '@': where the credentials end. -/
def credentialsEnd : List Byte → Nat → Nat → Nat
  | [], _, start => start
  | c :: cs, i, start => credentialsEnd cs (i + 1) (if c = ch '@' then i + 1 else start)

def cleanHostByte (c : Byte) : Byte :=
  if isAlnum c then toLower c
  else if c == ch '.' || c == ch '-' || c == ch '_' || c == ch ':' || c == ch '[' || c == ch ']' then c
  else ch '_'

/-- `logger_sanitize_host`: the string in `out`, or `none` where there is no
room for one. -/
def loggerSanitizeHost (input : Option (List Byte)) (outLen : Nat) : Option (List Byte) :=
  if outLen = 0 then none
  else match input with
    | none => some (snprintf outLen (bytes "-")).1
    | some s =>
      let auth := (dropScheme s).takeWhile fun c => !isDelimiter c
      let out := ((auth.drop (credentialsEnd auth 0 0)).take (outLen - 1)).map cleanHostByte
      some (if out.isEmpty then (snprintf outLen (bytes "-")).1 else out)

def cleanDecisionByte (c : Byte) : Byte := if isAlnum c then toLower c else ch '_'

def sanitizeDecision (input : Option (List Byte)) (outLen : Nat) : List Byte :=
  let out := ((input.getD []).take (outLen - 1)).map cleanDecisionByte
  if out.isEmpty && decide (outLen > 1) then [ch '-'] else out

def cleanExtrasByte (c : Byte) : Byte :=
  if isAlnum c then toLower c
  else if c == ch '_' || c == ch '=' || c == ch ',' || c == ch '.' || c == ch '-' || c == ch ' ' then c
  else ch '_'

def sanitizeExtras (input : Option (List Byte)) (outLen : Nat) : List Byte :=
  ((input.getD []).take (outLen - 1)).map cleanExtrasByte

/-! ## The line -/

/-- `struct tm`, as far as it is printed. -/
structure Tm where
  year : Int
  mon : Nat
  mday : Nat
  hour : Nat
  min : Nat
  sec : Nat
  deriving DecidableEq, Repr

def twoDigits (n : Nat) : List Byte := if n < 10 then ch '0' :: decimal n else decimal n

/-- The text of `strftime` for "%Y-%m-%dT%H:%M:%SZ". -/
def isoTime (tm : Tm) : List Byte :=
  signedDecimal (tm.year + 1900) ++ [ch '-'] ++ twoDigits (tm.mon + 1) ++ [ch '-'] ++ twoDigits tm.mday ++ [ch 'T'] ++
    twoDigits tm.hour ++ [ch ':'] ++ twoDigits tm.min ++ [ch ':'] ++ twoDigits tm.sec ++ [ch 'Z']

/-- `gmtime_r` may fail (`none`), and `strftime` gives up on a text that does
not fit. -/
def timestamp : Option Tm → List Byte
  | none => bytes "-"
  | some tm => if (isoTime tm).length + 1 > logTimestampMax then bytes "-" else isoTime tm

/-- The arguments of `log_request_ex`. -/
structure LogFields where
  requestId : UInt64
  host : Option (List Byte)
  decision : Option (List Byte)
  status : Int32
  bytesForwarded : UInt64
  durationMs : Int64
  extras : Option (List Byte)
  deriving DecidableEq, Repr

/-- `logger_sanitize_host` into a buffer that is not empty. -/
def safeHost (f : LogFields) : List Byte := (loggerSanitizeHost f.host logHostMax).getD []

def safeDecision (f : LogFields) : List Byte := sanitizeDecision f.decision logDecisionMax

def safeExtras (f : LogFields) : List Byte := sanitizeExtras f.extras logExtrasMax

/-- The line up to the extras. -/
def logFieldsText (now : Option Tm) (f : LogFields) : List Byte :=
  timestamp now ++ bytes " req=" ++ decimal f.requestId.toNat ++ bytes " host=" ++ safeHost f ++
    bytes " decision=" ++ safeDecision f ++ bytes " status=" ++ signedDecimal f.status.toInt ++
    bytes " bytes=" ++ decimal f.bytesForwarded.toNat ++ bytes " duration_ms=" ++ signedDecimal f.durationMs.toInt

/-- The extras with the space before them. -/
def logExtrasText (f : LogFields) : List Byte := (if safeExtras f ≠ [] then bytes " " else []) ++ safeExtras f

/-- What `log_request_ex` hands to `send_all`. A line that did not fit is cut,
and its last byte made a newline. -/
def logLine (now : Option Tm) (f : LogFields) : List Byte :=
  let (line, len) := snprintf logLineMax (logFieldsText now f ++ logExtrasText f ++ [ch '\n'])
  if len ≥ logLineMax then line.take (logLineMax - 2) ++ [ch '\n'] else line

/-! ## The file -/

/-- The log file, once it is open, and `g_failures`. -/
structure LogState where
  fdOpen : Bool := true
  file : List Byte := []
  failures : Nat := 0
  deriving DecidableEq, Repr

/-- A call of `log_request_ex`: its clock, its arguments, and what `write`
answers. -/
structure LogCall where
  now : Option Tm
  fields : LogFields
  writes : List WriteOutcome
  deriving DecidableEq, Repr

def LogCall.line (c : LogCall) : List Byte := logLine c.now c.fields

def logRequestEx (s : LogState) (c : LogCall) : LogState :=
  if !s.fdOpen then s
  else
    let sent := sendAll c.line c.writes
    { s with file := s.file ++ acceptedBytes sent.calls
             failures := if sent.rc ≠ some c.line.length then s.failures + 1 else s.failures }

/-- `log_request` is `log_request_ex` without extras. -/
def logRequest (s : LogState) (c : LogCall) : LogState :=
  logRequestEx s { c with fields := { c.fields with extras := none } }

def logRun (s : LogState) (calls : List LogCall) : LogState := calls.foldl logRequestEx s

end SecureProxy
