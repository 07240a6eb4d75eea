/-
`cache_evaluate_response` and its helpers (`cache.c`) as they go over the
response, byte by byte: `ci_prefix`, `ci_contains`, `parse_cache_control`, the
search for the end of the header block and the walk over its lines.

A pointer into the response is its index there, and a function that is given
`s` and `n` may read below `s + n`. The two loops whose step is not by one are
allowed as many rounds as there are bytes. What the scanners come to is what
`SecureProxy.CacheEligibility` says of the same bytes.
-/
import SecureProxy.CacheControl
import SecureProxy.CacheHeader
import SecureProxy.Lib.Reads

namespace SecureProxy

open Bytes Reads

/-- The loops whose progress is noted. -/
inductive CacheLoop where
  /-- The outer loop of `parse_cache_control`. -/
  | directives
  /-- The walk over the header lines, while it goes on. -/
  | lines
  /-- Where that walk ends. -/
  | linesEnd
  deriving DecidableEq, Repr

abbrev CacheReading := Reading CacheLoop

/-- `a || b`, of which `b` is evaluated only where `a` fails. -/
def orElseReads (a b : CacheReading Bool) : CacheReading Bool := do
  let found ← a
  if found then pure true else b

/-- `a && b`, of which `b` is evaluated only where `a` holds. -/
def andThenReads (a b : CacheReading Bool) : CacheReading Bool := do
  let found ← a
  if found then b else pure false

/-! ## Words -/

/-- The loop of `ci_prefix`, at byte `i` of `s` and with the rest of the name. -/
def ciPrefixLoop (r : List Byte) (s n : Nat) : List Byte → Nat → CacheReading Bool
  | [], _ => pure true
  | c :: name, i => do
    let b ← readAt r (s + n) (s + i)
    if toLower b != toLower c then pure false else ciPrefixLoop r s n name (i + 1)

def ciPrefixReads (r : List Byte) (s n : Nat) (name : List Byte) : CacheReading Bool :=
  if n < name.length then pure false else ciPrefixLoop r s n name 0

def ciContainsLoop (r : List Byte) (s n : Nat) (needle : List Byte) (i : Nat) : CacheReading Bool :=
  if _h : i + needle.length ≤ n then do
    let found ← ciPrefixReads r (s + i) (n - i) needle
    if found then pure true else ciContainsLoop r s n needle (i + 1)
  else pure false
termination_by n + 1 - i

def ciContainsReads (r : List Byte) (s n : Nat) (needle : List Byte) : CacheReading Bool :=
  ciContainsLoop r s n needle 0

/-! ## Cache-Control -/

/-- A byte that is skipped before a directive. -/
def isSeparator (b : Byte) : Bool := isBlank b || b == ch ','

/-- `while (end > start && blank(v[end - 1])) end--`. -/
def trimEndLoop (r : List Byte) (limit v start : Nat) : Nat → CacheReading Nat
  | 0 => pure 0
  | stop + 1 =>
    if start < stop + 1 then do
      let b ← readAt r limit (v + stop)
      if isBlank b then trimEndLoop r limit v start stop else pure (stop + 1)
    else pure (stop + 1)

/-- The loop over the digits of a lifetime: `left` more from `num + k` on. -/
def secondsLoop (r : List Byte) (limit num : Nat) : Nat → Nat → Nat → CacheReading (Option Nat)
  | 0, _, val => pure (some val)
  | left + 1, k, val => do
    let b ← readAt r limit (num + k)
    if !isDigit b then pure none
    else do
      note (.value (val * 10 + digitVal b))
      secondsLoop r limit num left (k + 1) (val * 10 + digitVal b)

/-- `max-age=` or `s-maxage=`, of which `skip` is the length. -/
def secondsReads (r : List Byte) (limit d dl skip : Nat) : CacheReading (Option Nat) :=
  let nl := dl - skip
  if nl = 0 || decide (nl > 9) then pure none else secondsLoop r limit (d + skip) nl 0 0

/-- One directive of `dl` bytes at `d`, blanks removed. -/
def directiveReads (r : List Byte) (limit : Nat) (lt : Lifetimes) (d dl : Nat) : CacheReading (Option Lifetimes) := do
  let isPublic ← andThenReads (pure (dl == 6)) (ciPrefixReads r d dl (bytes "public"))
  if isPublic then pure (some lt)
  else do
    let isMax ← ciPrefixReads r d dl (bytes "max-age=")
    let isSmax ← ciPrefixReads r d dl (bytes "s-maxage=")
    if isMax || isSmax then do
      let val ← secondsReads r limit d dl (if isMax then 8 else 9)
      pure (val.map fun val => if isMax then { lt with maxAge := some val } else { lt with sMaxage := some val })
    else pure none

/-- The outer loop of `parse_cache_control`, at `i`. -/
def cacheControlLoop (r : List Byte) (v n : Nat) : Nat → Nat → Lifetimes → CacheReading (Option Lifetimes)
  | 0, _, _ => do
    note .stuck
    pure none
  | rounds + 1, i, lt =>
    if i < n then do
      note (.mark .directives i)
      let start ← scanWhile isSeparator r (v + n) v n i
      let i ← scanWhile (· != ch ',') r (v + n) v n start
      let stop ← trimEndLoop r (v + n) v start i
      if stop = start then cacheControlLoop r v n rounds i lt
      else do
        let lt ← directiveReads r (v + n) lt (v + start) (stop - start)
        match lt with
        | none => pure none
        | some lt => cacheControlLoop r v n rounds i lt
    else pure (some lt)

def parseCacheControlReads (r : List Byte) (v n : Nat) (lt : Lifetimes) : CacheReading (Option Lifetimes) :=
  cacheControlLoop r v n (n + 1) 0 lt

/-! ## One header line -/

/-- The loop over the digits of a Content-Length, from `line[k]` on. -/
def contentLengthLoop (r : List Byte) (limit line n k v : Nat) : CacheReading (Option Nat) :=
  if _h : k < n then do
    let b ← readAt r limit (line + k)
    if !isDigit b || decide (v > 1000000000) then pure none
    else do
      note (.value (v * 10 + digitVal b))
      contentLengthLoop r limit line n (k + 1) (v * 10 + digitVal b)
  else pure (some v)
termination_by n - k

def contentLengthReads (r : List Byte) (limit line n : Nat) : CacheReading (Option Nat) := do
  let k ← scanWhile isBlank r limit line n 15
  if k ≥ n then pure none else contentLengthLoop r limit line n k 0

def noteCacheControlReads (r : List Byte) (line n : Nat) (h : HeaderScan) : CacheReading (Except String HeaderScan) := do
  let named ← ciPrefixReads r line n (bytes "cache-control:")
  if named then do
    let lifetimes ← parseCacheControlReads r (line + 14) (n - 14) h.lifetimes
    match lifetimes with
    | none => pure (.error "unapproved Cache-Control directive")
    | some lifetimes => pure (.ok { h with lifetimes, sawCacheControl := true })
  else pure (.ok h)

def noteContentLengthReads (r : List Byte) (line n : Nat) (h : HeaderScan) :
    CacheReading (Except String HeaderScan) := do
  let named ← ciPrefixReads r line n (bytes "content-length:")
  if named then do
    let length ← contentLengthReads r r.length line n
    match length with
    | none => pure (.error "bad Content-Length")
    | some length => pure (.ok { h with contentLength := some length })
  else pure (.ok h)

/-- The tests of one line of `n` bytes, its line end removed. -/
def scanHeaderLineReads (r : List Byte) (line n : Nat) (h : HeaderScan) : CacheReading (Except String HeaderScan) := do
  let cookie ← ciPrefixReads r line n (bytes "set-cookie:")
  if cookie then pure (.error "Set-Cookie present")
  else do
    let credentials ← orElseReads (ciPrefixReads r line n (bytes "authorization:"))
      (ciPrefixReads r line n (bytes "www-authenticate:"))
    if credentials then pure (.error "Authorization present")
    else do
      let pragma ← andThenReads (ciPrefixReads r line n (bytes "pragma:")) (ciContainsReads r line n (bytes "no-cache"))
      if pragma then pure (.error "Pragma: no-cache")
      else do
        let vary ← andThenReads (ciPrefixReads r line n (bytes "vary:"))
          (orElseReads (orElseReads (ciContainsReads r line n (bytes "*")) (ciContainsReads r line n (bytes "cookie")))
            (ciContainsReads r line n (bytes "authorization")))
        if vary then pure (.error "Vary makes it personalised")
        else do
          let noted ← noteCacheControlReads r line n h
          match noted with
          | .error reason => pure (.error reason)
          | .ok h => noteContentLengthReads r line n h

/-! ## The response -/

/-- `memcmp(r + i, text, strlen(text)) == 0`. -/
def memcmpReads (r : List Byte) (i : Nat) : List Byte → CacheReading Bool
  | [] => pure true
  | c :: text => do
    let b ← readAt r r.length i
    let rest ← memcmpReads r (i + 1) text
    pure (b == c && rest)

def statusIs200Reads (r : List Byte) : CacheReading Bool :=
  if r.length < 12 then pure false
  else
    andThenReads (memcmpReads r 0 (bytes "HTTP/1.")) <|
    andThenReads (do return (← readAt r r.length 8) == ch ' ') <|
    andThenReads (memcmpReads r 9 (bytes "200")) <|
    if r.length > 12 then do
      let b ← readAt r r.length 12
      pure (b == ch ' ' || b == ch '\r' || b == ch '\n')
    else pure true

/-- The test of the search for `header_end`: how far the header block reaches, if
its last line but one ends at `i`. -/
def endsHereReads (r : List Byte) (i : Nat) : CacheReading (Option Nat) := do
  let a ← readAt r r.length i
  if a == ch '\n' then do
    let b ← readAt r r.length (i + 1)
    if b == ch '\n' then pure (some (i + 2))
    else if b == ch '\r' && decide (i + 2 < r.length) then do
      let c ← readAt r r.length (i + 2)
      pure (if c == ch '\n' then some (i + 3) else none)
    else pure none
  else pure none

/-- The search for `header_end`, from `i` on; `none` for 0. -/
def headerEndReads (r : List Byte) (i : Nat) : CacheReading (Option Nat) :=
  if _h : i + 1 < r.length then do
    let found ← endsHereReads r i
    match found with
    | some stop => pure (some stop)
    | none => headerEndReads r (i + 1)
  else pure none
termination_by r.length - i

/-- `line_len`: the line from `pos` to `eol`, without a CR at its end. -/
def lineLenReads (r : List Byte) (pos eol : Nat) : CacheReading Nat :=
  if eol - pos > 0 then do
    let b ← readAt r r.length (pos + (eol - pos) - 1)
    pure (if b == ch '\r' then eol - pos - 1 else eol - pos)
  else pure (eol - pos)

/-- The first line is the status line, and the last one is empty. -/
def walkLineReads (r : List Byte) (pos lineLen : Nat) (h : HeaderScan) : CacheReading (Except String HeaderScan) :=
  if pos ≠ 0 ∧ lineLen > 0 then scanHeaderLineReads r pos lineLen h else pure (.ok h)

/-- The walk over the header lines, at `pos`. -/
def headerWalk (r : List Byte) (headerEnd : Nat) : Nat → Nat → HeaderScan → CacheReading (Except String HeaderScan)
  | 0, _, h => do
    note .stuck
    pure (.ok h)
  | rounds + 1, pos, h =>
    if pos < headerEnd then do
      note (.mark .lines pos)
      let eol ← scanWhile (· != ch '\n') r r.length 0 headerEnd pos
      let lineLen ← lineLenReads r pos eol
      let noted ← walkLineReads r pos lineLen h
      match noted with
      | .error reason => pure (.error reason)
      | .ok h => headerWalk r headerEnd rounds (eol + 1) h
    else do
      note (.mark .linesEnd pos)
      pure (.ok h)

def cacheEvaluateResponseReads (r : List Byte) : CacheReading CacheVerdict := do
  let ok ← statusIs200Reads r
  if !ok then pure ⟨false, 0, "status is not 200"⟩
  else do
    let found ← headerEndReads r 0
    match found with
    | none => pure ⟨false, 0, "incomplete header block"⟩
    | some headerEnd => do
      let walked ← headerWalk r headerEnd (headerEnd + 1) 0 {}
      match walked with
      | .error reason => pure ⟨false, 0, reason⟩
      | .ok h => pure (judge (r.length - headerEnd) h)

end SecureProxy
