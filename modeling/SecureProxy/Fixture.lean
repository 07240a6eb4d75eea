/-
The offline provider of the reputation module (`reputation.c`): a file of rules
`host verdict`, and the verdict of the first rule that covers a host.

`fgets` fills a buffer of 1024 bytes, so a longer line comes in pieces, each of
which the loop takes for a line. What is asked of the provider is logged to a
file the model leaves out, and the delay of `timeout` is the caller's matter.
-/
import SecureProxy.Lib.Scan
import SecureProxy.Policy
import SecureProxy.Reputation

namespace SecureProxy

open Bytes

def fixtureLineMax : Nat := 1024

inductive FixtureVerdict where
  | safe
  | suspicious
  | malicious
  | unavailable
  | timeout
  deriving DecidableEq, Repr

def fixtureVerdictFromText (t : List Byte) : Option FixtureVerdict :=
  ([(bytes "safe", .safe), (bytes "suspicious", .suspicious), (bytes "malicious", .malicious),
    (bytes "unavailable", .unavailable), (bytes "timeout", .timeout)].find? (·.1 == t)).map Prod.snd

structure FixtureRule extends PolicyRule where
  verdict : FixtureVerdict
  deriving DecidableEq, Repr

/-- What one turn of the loop does with its line. -/
inductive FixtureLine where
  | ignored
  | malformed
  | rule (r : FixtureRule)
  deriving DecidableEq, Repr

/-- The host of a rule: normalised, and whether it had a leading dot. -/
def fixtureHost (host : List Byte) : Option PolicyRule :=
  let subdomains := host.head? == some (ch '.')
  (normaliseHost (if subdomains then host.tail else host)).map (⟨·, subdomains⟩)

/-- The fields `host` and `verdict`, where they are all there is. -/
def fixtureFields : List (List Byte) → FixtureLine
  | [] => .ignored
  | [host, verdict] =>
    match fixtureHost host, fixtureVerdictFromText verdict with
    | some r, some v => .rule ⟨r, v⟩
    | _, _ => .malformed
  | _ => .malformed

/-- The loop's body: cut the comment, and `sscanf(line, "%254s %31s %7s", ..)`. -/
def fixtureLine (line : List Byte) : FixtureLine :=
  fixtureFields (Scan.fields isSpace [254, 31, 7] (line.takeWhile (· != ch '#')))

/-- What the calls of `fgets` leave in the buffer, one after the other; each
takes a byte at least, so the file's length is fuel enough. -/
def fixtureReads : Nat → List Byte → List (List Byte)
  | 0, _ => []
  | _ + 1, [] => []
  | fuel + 1, c :: file =>
    let (raw, rest) := fgetsLine (fixtureLineMax - 1) (c :: file)
    raw.takeWhile (· != 0) :: fixtureReads fuel rest

structure FixtureData where
  rules : List FixtureRule := []
  malformed : Nat := 0
  deriving DecidableEq, Repr

/-- The loop; `none` when a `realloc` fails. -/
def fixtureLoop (alloc : Nat → Bool) : List (List Byte) → FixtureData → Option FixtureData
  | [], d => some d
  | line :: lines, d =>
    match fixtureLine line with
    | .ignored => fixtureLoop alloc lines d
    | .malformed => fixtureLoop alloc lines { d with malformed := d.malformed + 1 }
    | .rule r => if alloc d.rules.length then fixtureLoop alloc lines { d with rules := d.rules ++ [r] } else none

/-- `reputation_fixture_load`: the file, `none` when it cannot be opened, whether
`calloc` succeeds, and whether the `realloc` for the next rule does. -/
def reputationFixtureLoad (file : Option (List Byte)) (calloc : Bool) (alloc : Nat → Bool) : Option FixtureData :=
  match file, calloc with
  | some file, true => fixtureLoop alloc (fixtureReads file.length file) {}
  | _, _ => none

/-- The verdict a rule's word stands for; `timeout` answers late. -/
def FixtureVerdict.answer : FixtureVerdict → ReputationVerdict
  | .safe => .safe
  | .suspicious => .suspicious
  | .malicious => .malicious
  | .unavailable => .unavailable
  | .timeout => .safe

/-- `fixture_lookup`: unlisted hosts are safe. -/
def fixtureLookup (rules : List FixtureRule) (host : List Byte) : ReputationVerdict :=
  ((rules.find? fun r => ruleMatches r.toPolicyRule host).elim .safe (·.verdict)).answer

end SecureProxy
