/-
Which responses may be cached, and for how long (`cache_evaluate_response`
and its helpers in `cache.c`).

A response is the list of its bytes and a header line a part of it; `-1` for
"not seen" is `none`.
-/
import SecureProxy.Cache

namespace SecureProxy

open Bytes

def cacheDefaultTtlSeconds : Nat := 60

structure CacheVerdict where
  cacheable : Bool
  ttlSeconds : Nat
  reason : String
  deriving DecidableEq, Repr

/-- `ci_prefix`: `s` begins with `name`, in any case. -/
def ciPrefix (s name : List Byte) : Bool :=
  decide (name.length ≤ s.length) && (s.take name.length).map toLower == name.map toLower

/-- `ci_contains`. -/
def ciContains (s needle : List Byte) : Bool := s.tails.any fun rest => ciPrefix rest needle

/-- A blank of a header value. -/
def isBlank (b : Byte) : Bool := b == ch ' ' || b == ch '\t'

/-- The parts of `s` between separators; `part` is what has been read of the
current one. A part that ends `s` counts if it is not empty. -/
def splitParts (sep : Byte) : List Byte → List Byte → List (List Byte)
  | [], part => if part.isEmpty then [] else [part]
  | b :: s, part => if b = sep then part :: splitParts sep s [] else splitParts sep s (part ++ [b])

/-! ## Cache-Control -/

structure Lifetimes where
  maxAge : Option Nat := none
  sMaxage : Option Nat := none
  deriving DecidableEq, Repr

/-- The number of a `max-age` or `s-maxage` directive. -/
def parseSeconds (num : List Byte) : Option Nat :=
  if num.length = 0 || decide (num.length > 9) || !num.all isDigit then none else some (numVal num)

/-- One directive, without the blanks around it. -/
def parseDirective (lt : Lifetimes) (d : List Byte) : Option Lifetimes :=
  if d.isEmpty then some lt
  else if d.length = 6 && ciPrefix d (bytes "public") then some lt
  else if ciPrefix d (bytes "max-age=") then (parseSeconds (d.drop 8)).map fun v => { lt with maxAge := some v }
  else if ciPrefix d (bytes "s-maxage=") then (parseSeconds (d.drop 9)).map fun v => { lt with sMaxage := some v }
  else none

/-- `parse_cache_control`: `none` if a directive is not approved. -/
def parseCacheControl (lt : Lifetimes) (v : List Byte) : Option Lifetimes :=
  (splitParts (ch ',') v []).foldlM (fun lt d => parseDirective lt ((d.dropWhile isBlank).rdropWhile isBlank)) lt

/-! ## Header lines -/

/-- What the walk over the header lines has seen. -/
structure HeaderScan where
  lifetimes : Lifetimes := {}
  contentLength : Option Nat := none
  sawCacheControl : Bool := false
  deriving DecidableEq, Repr

/-- The digits of a Content-Length, from the value `v` on. -/
def contentLengthFrom : List Byte → Nat → Option Nat
  | [], v => some v
  | b :: s, v => if !isDigit b || decide (v > 1000000000) then none else contentLengthFrom s (v * 10 + digitVal b)

def parseContentLength (value : List Byte) : Option Nat :=
  match value.dropWhile isBlank with
  | [] => none
  | digits => contentLengthFrom digits 0

def noteCacheControl (line : List Byte) (h : HeaderScan) : Except String HeaderScan :=
  if ciPrefix line (bytes "cache-control:") then
    match parseCacheControl h.lifetimes (line.drop 14) with
    | none => .error "unapproved Cache-Control directive"
    | some lifetimes => .ok { h with lifetimes, sawCacheControl := true }
  else .ok h

def noteContentLength (line : List Byte) (h : HeaderScan) : Except String HeaderScan :=
  if ciPrefix line (bytes "content-length:") then
    match parseContentLength (line.drop 15) with
    | none => .error "bad Content-Length"
    | some n => .ok { h with contentLength := some n }
  else .ok h

/-- One header line, without its line end. -/
def scanHeaderLine (h : HeaderScan) (line : List Byte) : Except String HeaderScan :=
  if line.isEmpty then .ok h
  else if ciPrefix line (bytes "set-cookie:") then .error "Set-Cookie present"
  else if ciPrefix line (bytes "authorization:") || ciPrefix line (bytes "www-authenticate:") then
    .error "Authorization present"
  else if ciPrefix line (bytes "pragma:") && ciContains line (bytes "no-cache") then .error "Pragma: no-cache"
  else if ciPrefix line (bytes "vary:") && (ciContains line (bytes "*") || ciContains line (bytes "cookie") ||
      ciContains line (bytes "authorization")) then .error "Vary makes it personalised"
  else (noteCacheControl line h).bind (noteContentLength line)

/-- A line without one CR at its end. -/
def dropCr (line : List Byte) : List Byte := if line.getLast? = some (ch '\r') then line.dropLast else line

/-- The lines of a header block. -/
def headerLines (block : List Byte) : List (List Byte) := (splitParts (ch '\n') block []).map dropCr

/-- The walk; the first line is the status line. -/
def scanHeaders (block : List Byte) : Except String HeaderScan := (headerLines block).tail.foldlM scanHeaderLine {}

/-! ## The verdict -/

/-- Where the header block ends, just after its empty line. -/
def headerEnd : List Byte → Option Nat
  | a :: b :: s =>
    if a = ch '\n' && b = ch '\n' then some 2
    else if a = ch '\n' && b = ch '\r' && s.head? = some (ch '\n') then some 3
    else (headerEnd (b :: s)).map (· + 1)
  | _ => none

/-- The status line says 200. -/
def statusIs200 (r : List Byte) : Bool :=
  decide (r.length ≥ 12) && r.take 7 == bytes "HTTP/1." && r[8]? == some (ch ' ') &&
    (r.drop 9).take 3 == bytes "200" &&
    (r[12]?.all fun b => b == ch ' ' || b == ch '\r' || b == ch '\n')

/-- The lifetime before it is capped. -/
def lifetime (h : HeaderScan) : Nat :=
  if h.sawCacheControl then (h.lifetimes.sMaxage.orElse fun _ => h.lifetimes.maxAge).getD cacheDefaultTtlSeconds
  else cacheDefaultTtlSeconds

/-- The rest of the decision, once the headers have been walked. -/
def judge (bodyLen : Nat) (h : HeaderScan) : CacheVerdict :=
  if h.contentLength.any fun n => n != bodyLen then
    ⟨false, 0, "body does not match Content-Length (partial response)"⟩
  else if lifetime h = 0 then ⟨false, 0, "lifetime is zero"⟩
  else ⟨true, min (lifetime h) cacheMaxTtlSeconds, "eligible"⟩

def cacheEvaluateResponse (r : List Byte) : CacheVerdict :=
  if !statusIs200 r then ⟨false, 0, "status is not 200"⟩
  else match headerEnd r with
    | none => ⟨false, 0, "incomplete header block"⟩
    | some stop =>
      match scanHeaders (r.take stop) with
      | .error reason => ⟨false, 0, reason⟩
      | .ok h => judge (r.length - stop) h

theorem judge_ttl (bodyLen : Nat) (h : HeaderScan) : (judge bodyLen h).cacheable = true →
    0 < (judge bodyLen h).ttlSeconds ∧ (judge bodyLen h).ttlSeconds ≤ cacheMaxTtlSeconds := by
  unfold judge
  split
  · simp
  · split
    · simp
    · intro _
      simp only [cacheMaxTtlSeconds]
      omega

/-- A cacheable response is kept for a second at least and an hour at most. -/
theorem cacheEvaluateResponse_ttl (r : List Byte) : (cacheEvaluateResponse r).cacheable = true →
    0 < (cacheEvaluateResponse r).ttlSeconds ∧ (cacheEvaluateResponse r).ttlSeconds ≤ cacheMaxTtlSeconds := by
  unfold cacheEvaluateResponse
  split
  · simp
  · split
    · simp
    · split
      · simp
      · exact judge_ttl _ _

example : cacheEvaluateResponse (bytes "HTTP/1.1 200 OK\r\nCache-Control: public, max-age=90\r\n\r\nhi") =
    ⟨true, 90, "eligible"⟩ := by decide +kernel

end SecureProxy
