/-
Risk scoring and the block page (`decision.c`).
-/
import SecureProxy.Reputation

namespace SecureProxy

open Bytes

inductive DecisionReason where
  | none
  | policy
  | network
  | reputation
  | port
  deriving DecidableEq, Repr

inductive DecisionAction where
  | allow
  | block
  deriving DecidableEq, Repr

/-- Everything learned about a request so far. -/
structure DecisionInputs where
  policyDenied : Bool := false
  networkUnsafe : Bool := false
  portDenied : Bool := false
  reputationChecked : Bool := false
  reputation : ReputationVerdict := .safe
  deriving DecidableEq, Repr

structure Decision where
  action : DecisionAction
  reason : DecisionReason
  riskScore : Nat
  deriving DecidableEq, Repr

def riskBlockedByRule : Nat := 100
def decisionBlockThreshold : Nat := 80

def decisionScoreReputation : ReputationVerdict → Nat
  | .safe => 0
  | .suspicious => 50
  | .malicious => 90
  | .unavailable => 10

def decisionReasonName : DecisionReason → String
  | .none => "none"
  | .policy => "policy"
  | .network => "network"
  | .reputation => "reputation"
  | .port => "port"

/-- The candidates in tie-break order: whether active, score, reason. -/
def decisionCandidates (sig : DecisionInputs) : List (Bool × Nat × DecisionReason) :=
  [(sig.portDenied, riskBlockedByRule, .port),
   (sig.policyDenied, riskBlockedByRule, .policy),
   (sig.networkUnsafe, riskBlockedByRule, .network),
   (sig.reputationChecked, if sig.reputationChecked then decisionScoreReputation sig.reputation else 0, .reputation)]

def decisionEvaluate (sig : DecisionInputs) : Decision :=
  -- strict '>' keeps the earlier candidate on a tie
  let (score, top) := (decisionCandidates sig).foldl
    (fun (d : Nat × DecisionReason) c => if c.1 && decide (c.2.1 > d.1) then c.2 else d) (0, .none)
  if score ≥ decisionBlockThreshold then ⟨.block, top, score⟩ else ⟨.allow, .none, score⟩

/-! ## The block page -/

def reasonHeadline : DecisionReason → String
  | .policy => "Blocked by access policy"
  | .network => "Destination not permitted"
  | .reputation => "Flagged as unsafe"
  | .port => "Port not permitted"
  | .none => "Request blocked"

def reasonExplanation : DecisionReason → String
  | .policy => "This destination is not allowed by the access policy that applies to this proxy."
  | .network =>
    "This destination is on a private, local or otherwise restricted network, which this proxy never connects to."
  | .reputation => "A threat-reputation check flagged this destination as unsafe."
  | .port => "Secure tunnels are only permitted to the standard HTTPS port."
  | .none => "This request was blocked."

/-- The fixed texts of the page, up to the reason's name and from the request ID on. -/
def blockBodyOpen : List Byte :=
  bytes "<!DOCTYPE html>\n<html lang=\"en\">\n" ++
  bytes "<head><meta charset=\"utf-8\"><title>Request blocked</title></head>\n" ++
  bytes "<body>\n<h1>Request blocked</h1>\n" ++
  bytes "<p><strong>Reason:</strong> <span id=\"reason\" data-reason=\""

def blockBodyClose : List Byte :=
  bytes "</code></p>\n" ++
  bytes "<p>If you think this is a mistake, give the request ID to your administrator.</p>\n" ++
  bytes "</body>\n</html>\n"

def blockBody (requestId : UInt64) (reason : DecisionReason) : List Byte :=
  blockBodyOpen ++ bytes (decisionReasonName reason) ++ bytes "\">" ++ bytes (reasonHeadline reason) ++
    bytes "</span></p>\n<p>" ++ bytes (reasonExplanation reason) ++
    bytes "</p>\n<p>Request ID: <code id=\"request-id\">" ++ decimal requestId.toNat ++ blockBodyClose

def blockHeaderOpen : List Byte :=
  bytes "HTTP/1.1 403 Forbidden\r\n" ++ bytes "Content-Type: text/html; charset=utf-8\r\n" ++
  bytes "Content-Length: "

def blockHeaderClose : List Byte :=
  bytes "\r\nCache-Control: no-store\r\n" ++ bytes "X-Content-Type-Options: nosniff\r\n" ++
  bytes "Connection: close\r\n\r\n"

def blockHeader (requestId : UInt64) (bodyLen : Nat) : List Byte :=
  blockHeaderOpen ++ decimal bodyLen ++ bytes "\r\nX-Request-Id: " ++ decimal requestId.toNat ++ blockHeaderClose

/-- `decision_build_block_response`: the page, or `none` when it returns 0. -/
def decisionBuildBlockResponse (outLen : Nat) (requestId : UInt64) (reason : DecisionReason) : Option (List Byte) :=
  let body := blockBody requestId reason
  if body.length ≥ 1024 then none
  else
    let header := blockHeader requestId body.length
    if header.length + body.length + 1 > outLen then none else some (header ++ body)

theorem length_decimal_uint64 (id : UInt64) : (decimal id.toNat).length ≤ 20 :=
  length_decimal_le (by omega) (Nat.lt_of_lt_of_le id.toNat_lt (by decide))

theorem blockBody_length_lt (id : UInt64) (reason : DecisionReason) : (blockBody id reason).length < 1000 := by
  have hid := length_decimal_uint64 id
  have hreason : ∀ r : DecisionReason, (bytes (decisionReasonName r)).length ≤ 10 ∧
      (bytes (reasonHeadline r)).length ≤ 25 ∧ (bytes (reasonExplanation r)).length ≤ 110 := by
    intro r
    cases r <;> simp only [decisionReasonName, reasonHeadline, reasonExplanation] <;>
      exact ⟨length_bytes_le (by decide), length_bytes_le (by decide), length_bytes_le (by decide)⟩
  have hopen : blockBodyOpen.length ≤ 190 :=
    length_append_bytes_le (length_append_bytes_le (length_append_bytes_le (length_bytes_le (Nat.le_refl _))
      (Nat.le_refl _)) (Nat.le_refl _)) (by decide)
  have hclose : blockBodyClose.length ≤ 110 :=
    length_append_bytes_le (length_append_bytes_le (length_bytes_le (Nat.le_refl _)) (Nat.le_refl _)) (by decide)
  have h1 : (bytes "\">").length = 2 := length_bytes _
  have h2 : (bytes "</span></p>\n<p>").length = 15 := length_bytes _
  have h3 : (bytes "</p>\n<p>Request ID: <code id=\"request-id\">").length = 42 := length_bytes _
  have := hreason reason
  simp only [blockBody, List.length_append, h1, h2, h3]
  omega

theorem blockHeader_length_lt (id : UInt64) {n : Nat} (h : n < 1000) : (blockHeader id n).length < 1000 := by
  have hid := length_decimal_uint64 id
  have hn : (decimal n).length ≤ 3 := length_decimal_le (by omega) (by omega)
  have hopen : blockHeaderOpen.length ≤ 80 :=
    length_append_bytes_le (length_append_bytes_le (length_bytes_le (Nat.le_refl _)) (Nat.le_refl _)) (by decide)
  have hclose : blockHeaderClose.length ≤ 81 :=
    length_append_bytes_le (length_append_bytes_le (length_bytes_le (Nat.le_refl _)) (Nat.le_refl _)) (by decide)
  have h1 : (bytes "\r\nX-Request-Id: ").length = 16 := length_bytes _
  simp only [blockHeader, List.length_append, h1]
  omega

/-- 2048 bytes always hold the page. -/
theorem decisionBuildBlockResponse_some (id : UInt64) (reason : DecisionReason) :
    decisionBuildBlockResponse 2048 id reason =
      some (blockHeader id (blockBody id reason).length ++ blockBody id reason) := by
  have hb := blockBody_length_lt id reason
  have hh := blockHeader_length_lt id hb
  have h1 : ¬ (blockBody id reason).length ≥ 1024 := by omega
  have h2 : ¬ (blockHeader id (blockBody id reason).length).length + (blockBody id reason).length + 1 > 2048 := by
    omega
  simp only [decisionBuildBlockResponse, h1, h2, if_false]

/-! ## What the signals decide -/

/-- A signal that a rule denies the request blocks it; without one only a
malicious verdict does. -/
theorem decisionEvaluate_cases (sig : DecisionInputs) :
    (decisionEvaluate sig).action = .block ↔
      sig.portDenied ∨ sig.policyDenied ∨ sig.networkUnsafe ∨
        (sig.reputationChecked ∧ sig.reputation = .malicious) := by
  rcases sig with ⟨p, n, t, c, v⟩
  cases p <;> cases n <;> cases t <;> cases c <;> cases v <;> decide

end SecureProxy
