/-
The host policy (`policy.c`): rule lines, loading the two rule files, and
`policy_check_host`.

A rule file is the list of its bytes, `none` when it cannot be opened; whether
the `realloc` for the next rule succeeds is the files' choice too. A buffer
read as a C string ends at its first NUL. `policy_free` leaves the zeroed
policy.
-/
import SecureProxy.Parser

namespace SecureProxy

open Bytes

def policyLineMax : Nat := 1024
def policyHostMax : Nat := 253

inductive PolicyDecision where
  | allow
  | denyBlocklist
  | denyNotAllowlisted
  deriving DecidableEq, Repr

structure PolicyRule where
  host : List Byte
  includeSubdomains : Bool
  deriving DecidableEq, Repr

structure Policy where
  blockRules : List PolicyRule
  allowRules : List PolicyRule
  allowlistActive : Bool
  deriving DecidableEq, Repr

/-- A zeroed `Policy`. -/
def Policy.zero : Policy := ⟨[], [], false⟩

def isDot (c : Byte) : Bool := c == ch '.'

/-- `normalize_host`: what lies before a ':', as much of it as `out` holds
beside the NUL, lowercased and without trailing dots. -/
def normalizeHost (host : List Byte) (outLen : Nat) : List Byte :=
  (((host.takeWhile (· != ch ':')).take (outLen - 1)).map toLower).rdropWhile isDot

/-! ## Rule lines -/

inductive RuleLine where
  | blank
  | malformed
  | rule (r : PolicyRule)
  deriving DecidableEq, Repr

/-- The scan for a byte that is not a hostname's, or for an empty label. -/
def labelsOk : Byte → List Byte → Bool
  | _, [] => true
  | prev, c :: cs =>
    if !isHostByte c then false
    else if c = ch '.' ∧ prev = ch '.' then false
    else labelsOk c cs

/-- A rule's host once the blanks around it are gone. -/
def parseRuleHost (start : List Byte) : RuleLine :=
  let subdomains := start.head? == some (ch '.')
  let host := (if subdomains then start.tail else start).rdropWhile isDot
  if host.isEmpty || decide (host.length > policyHostMax) then .malformed
  else if !labelsOk (ch '.') host then .malformed
  else .rule ⟨host.map toLower, subdomains⟩

def parseRuleLine (line : List Byte) : RuleLine :=
  let buf := line.takeWhile fun c => c != ch '#' && c != ch '\r' && c != ch '\n'
  if buf.length ≥ policyLineMax then .malformed
  else
    let start := (buf.dropWhile isSpace).rdropWhile isSpace
    if start.isEmpty then .blank else parseRuleHost start

/-! ## Loading -/

/-- The bytes `fgets` stores in at most `room` places, and the rest of the file. -/
def fgetsLine : Nat → List Byte → List Byte × List Byte
  | 0, file => ([], file)
  | _ + 1, [] => ([], [])
  | room + 1, c :: file =>
    if c = ch '\n' then ([c], file)
    else (c :: (fgetsLine room file).1, (fgetsLine room file).2)

/-- The rest of a file behind its next LF. -/
def skipLine (file : List Byte) : List Byte := (file.dropWhile (· != ch '\n')).tail

/-- What `load_file` has gathered so far. -/
structure LoadState where
  rules : List PolicyRule := []
  loaded : Nat := 0
  malformed : Nat := 0
  sawText : Bool := false
  deriving DecidableEq, Repr

/-- The lines of a file, one turn of the `fgets` loop each; a turn eats at
least a byte, so the file's length is fuel enough. `none` when a `realloc`
fails. -/
def loadLines (alloc : Nat → Bool) : Nat → List Byte → LoadState → Option LoadState
  | 0, _, st => some st
  | _ + 1, [], st => some st
  | fuel + 1, c :: file, st =>
    let (raw, rest) := fgetsLine (policyLineMax - 1) (c :: file)
    let line := raw.takeWhile (· != 0)
    if line.length = policyLineMax - 1 ∧ line.getLast? ≠ some (ch '\n') then
      loadLines alloc fuel (skipLine rest) { st with malformed := st.malformed + 1, sawText := true }
    else match parseRuleLine line with
      | .blank => loadLines alloc fuel rest st
      | .malformed => loadLines alloc fuel rest { st with malformed := st.malformed + 1, sawText := true }
      | .rule r =>
        if alloc st.rules.length then
          loadLines alloc fuel rest
            { st with rules := st.rules ++ [r], loaded := st.loaded + 1, sawText := true }
        else none

/-- `load_file`, with whether the file was missing. -/
def loadFile (alloc : Nat → Bool) : Option (List Byte) → Option (LoadState × Bool)
  | none => some ({}, true)
  | some file => (loadLines alloc file.length file {}).map (·, false)

structure PolicyLoadReport where
  blockLoaded : Nat
  blockMalformed : Nat
  allowLoaded : Nat
  allowMalformed : Nat
  blockFileMissing : Bool
  allowFileMissing : Bool
  deriving DecidableEq, Repr

/-- What `policy_load` finds on disk and gets from `realloc`. -/
structure PolicyFiles where
  block : Option (List Byte)
  allow : Option (List Byte)
  blockAlloc : Nat → Bool := fun _ => true
  allowAlloc : Nat → Bool := fun _ => true

def policyLoad (files : PolicyFiles) : Option (Policy × PolicyLoadReport) := do
  let (block, blockMissing) ← loadFile files.blockAlloc files.block
  let (allow, allowMissing) ← loadFile files.allowAlloc files.allow
  -- Fail closed: any rule text turns allowlist mode on.
  return (⟨block.rules, allow.rules, allow.sawText⟩,
    ⟨block.loaded, block.malformed, allow.loaded, allow.malformed, blockMissing, allowMissing⟩)

/-! ## Checking a host -/

def ruleMatches (rule : PolicyRule) (host : List Byte) : Bool :=
  host == rule.host ||
    (rule.includeSubdomains && decide (host.length > rule.host.length + 1) &&
      host[host.length - rule.host.length - 1]? == some (ch '.') &&
      host.drop (host.length - rule.host.length) == rule.host)

def policyCheckHost (p : Policy) (host : List Byte) : PolicyDecision :=
  let norm := normalizeHost host (policyHostMax + 2)
  if p.blockRules.any (ruleMatches · norm) then .denyBlocklist
  else if p.allowlistActive then
    if p.allowRules.any (ruleMatches · norm) then .allow else .denyNotAllowlisted
  else .allow

/-- `policy_free` leaves a zeroed `Policy`. -/
def policyFree (_ : Policy) : Policy := .zero

/-- `hostname_is_local_name`. -/
def hostnameIsLocalName (host : List Byte) : Bool :=
  let norm := normalizeHost host (policyHostMax + 2)
  norm == bytes "localhost" ||
    [bytes ".localhost", bytes ".local"].any fun suffix =>
      decide (norm.length > suffix.length) && norm.drop (norm.length - suffix.length) == suffix

end SecureProxy
