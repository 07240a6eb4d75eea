/-
`policy_check_host` against what its rules say: a host is blocked when a
block rule covers it, refused in allowlist mode when no allow rule does, and
allowed otherwise.

The name the rules are matched with is the host cut to the 254 bytes the
normalisation buffer holds, while both parsers admit hosts of 255. So the
code decides for the host itself exactly when the rules do not tell it from
its cut (`policyCheckHost_decides_iff`), and a host of 255 bytes under a
blocked domain gets through (`policyCheckHost_long_host_allowed`).
-/
import SecureProxy.ParserFacts
import SecureProxy.Policy

namespace SecureProxy

open Bytes

/-- Rule `r` covers the name `c`: it is the rule's host, or, for a rule with
a leading dot, a non-empty prefix and a dot before it. -/
def Covers (r : PolicyRule) (c : List Byte) : Prop :=
  c = r.host ∨ (r.includeSubdomains = true ∧ ∃ pre, pre ≠ [] ∧ c = pre ++ ch '.' :: r.host)

/-- The decision the rules of `p` ask for on the name `c`. -/
structure Decides (p : Policy) (c : List Byte) (d : PolicyDecision) : Prop where
  block : d = .denyBlocklist ↔ ∃ r ∈ p.blockRules, Covers r c
  notAllowlisted : d = .denyNotAllowlisted ↔
    (¬∃ r ∈ p.blockRules, Covers r c) ∧ p.allowlistActive = true ∧ ¬∃ r ∈ p.allowRules, Covers r c
  allow : d = .allow ↔
    (¬∃ r ∈ p.blockRules, Covers r c) ∧ (p.allowlistActive = true → ∃ r ∈ p.allowRules, Covers r c)

/-- The host lowercased, all trailing dots removed. -/
def canonicalHost (host : List Byte) : List Byte := (host.map toLower).rdropWhile isDot

/-- The same of the first 254 bytes of the host. -/
def cutHost (host : List Byte) : List Byte := canonicalHost (host.take (policyHostMax + 1))

/-- The rules of `p` that matter answer alike on `a` and `b`: the block
rules, and the allow rules where these are asked. -/
def SameCover (p : Policy) (a b : List Byte) : Prop :=
  ((∃ r ∈ p.blockRules, Covers r a) ↔ ∃ r ∈ p.blockRules, Covers r b) ∧
  ((¬∃ r ∈ p.blockRules, Covers r b) → p.allowlistActive = true →
    ((∃ r ∈ p.allowRules, Covers r a) ↔ ∃ r ∈ p.allowRules, Covers r b))

/-! ## Rules -/

/-- The comparison at a computed offset is one of a proper suffix. -/
theorem drop_eq_suffix_iff {c suffix : List Byte} :
    c.length > suffix.length ∧ c.drop (c.length - suffix.length) = suffix ↔ ∃ pre, pre ≠ [] ∧ c = pre ++ suffix := by
  constructor
  · rintro ⟨hlen, hdrop⟩
    refine ⟨c.take (c.length - suffix.length), ?_, ?_⟩
    · refine List.ne_nil_of_length_pos ?_
      rw [List.length_take]
      omega
    · conv_lhs => rw [← List.take_append_drop (c.length - suffix.length) c, hdrop]
  · rintro ⟨pre, hpre, rfl⟩
    have hpos := List.length_pos_iff.2 hpre
    rw [List.length_append, Nat.add_sub_cancel, List.drop_left]
    exact ⟨by omega, rfl⟩

theorem suffix_iff_drop {host rule : List Byte} (hlen : rule.length + 1 < host.length) :
    (host[host.length - rule.length - 1]? = some (ch '.') ∧ host.drop (host.length - rule.length) = rule) ↔
      ∃ pre, pre ≠ [] ∧ host = pre ++ ch '.' :: rule := by
  have hi : host.length - rule.length - 1 < host.length := by omega
  have hnext : host.length - rule.length - 1 + 1 = host.length - rule.length := by omega
  rw [← drop_eq_suffix_iff, List.length_cons, Nat.sub_add_eq, List.drop_eq_getElem_cons hi, hnext,
    List.getElem?_eq_getElem hi, Option.some.injEq, List.cons.injEq]
  exact (and_iff_right (by omega)).symm

/-- `rule_matches` is coverage. -/
theorem ruleMatches_iff {r : PolicyRule} {c : List Byte} : ruleMatches r c = true ↔ Covers r c := by
  simp only [ruleMatches, Covers, Bool.or_eq_true, beq_iff_eq, Bool.and_eq_true, decide_eq_true_eq, and_assoc]
  refine or_congr_right (and_congr_right fun _ => ?_)
  constructor
  · intro h'
    obtain ⟨hlen, h⟩ := h'
    exact (suffix_iff_drop hlen).1 h
  · intro h'
    obtain ⟨pre, hne, rfl⟩ := h'
    have hlen : r.host.length + 1 < (pre ++ ch '.' :: r.host).length := by
      have := List.length_pos_iff.2 hne
      simp
      omega
    exact ⟨hlen, (suffix_iff_drop hlen).2 ⟨pre, hne, rfl⟩⟩

theorem any_ruleMatches_iff {rs : List PolicyRule} {c : List Byte} :
    rs.any (ruleMatches · c) = true ↔ ∃ r ∈ rs, Covers r c := by
  simp [List.any_eq_true, ruleMatches_iff]

/-- A decision made for `a` is the one for `b` exactly when the rules do not
tell the two apart. -/
theorem Decides.iff_sameCover {p : Policy} {a b : List Byte} {d : PolicyDecision} (h : Decides p a d) :
    Decides p b d ↔ SameCover p a b := by
  constructor
  · intro h'
    refine ⟨h.block.symm.trans h'.block, fun hb hact => ?_⟩
    have ha : ¬∃ r ∈ p.blockRules, Covers r a := fun hx => hb (h'.block.1 (h.block.2 hx))
    constructor
    · intro hx
      exact (h'.allow.1 (h.allow.2 ⟨ha, fun _ => hx⟩)).2 hact
    · intro hx
      exact (h.allow.1 (h'.allow.2 ⟨hb, fun _ => hx⟩)).2 hact
  · intro hall
    obtain ⟨hblock, hallow⟩ := hall
    refine ⟨h.block.trans hblock, h.notAllowlisted.trans ?_, h.allow.trans ?_⟩
    · rw [hblock]
      exact and_congr_right fun hb => and_congr_right fun hact => not_congr (hallow hb hact)
    · rw [hblock]
      exact and_congr_right fun hb => forall_congr' fun hact => hallow hb hact

/-! ## The name that is matched -/

/-- On a parser's host `normalize_host` only cuts and strips dots. -/
theorem normalizeHost_parserHost {h : List Byte} (hp : ParserHost h) :
    normalizeHost h (policyHostMax + 2) = cutHost h := by
  have hcolon : h.takeWhile (· != ch ':') = h :=
    List.takeWhile_eq_self_iff.2 fun b hb => by
      simpa using (isParsedHostByte_not_delim (hp.facts.2.2 b hb)).1
  unfold normalizeHost cutHost canonicalHost
  rw [hcolon]
  rfl

theorem policyCheckHost_decides_cut {p : Policy} {h : List Byte} (hp : ParserHost h) :
    Decides p (cutHost h) (policyCheckHost p h) := by
  unfold policyCheckHost
  rw [normalizeHost_parserHost hp]
  constructor <;> simp only [← any_ruleMatches_iff] <;> grind

/-- The cut is harmless up to 254 bytes, and when the byte it drops is a dot. -/
theorem cutHost_eq_canonicalHost {h : List Byte} (hp : ParserHost h)
    (hc : h.length ≤ policyHostMax + 1 ∨ h.getLast? = some (ch '.')) : cutHost h = canonicalHost h := by
  unfold cutHost
  by_cases hlen : h.length ≤ policyHostMax + 1
  · rw [List.take_of_length_le hlen]
  · obtain ⟨l, rfl⟩ := List.getLast?_eq_some_iff.1 (hc.resolve_left hlen)
    have hl := hp.facts.2.1
    simp only [List.length_append, List.length_singleton, maxHostLen, policyHostMax] at hl hlen
    have : l.length = policyHostMax + 1 := by simp only [policyHostMax]; omega
    rw [← this, List.take_left]
    simp only [canonicalHost, List.map_append, List.map_cons, List.map_nil]
    rw [List.rdropWhile_concat_pos _ _ _ (by decide)]

/-- **`policy_check_host` decides for the host** exactly when the host is at
most 254 bytes long, or ends with a dot, or the rules do not tell its first
254 bytes from the whole of it. -/
theorem policyCheckHost_decides_iff (p : Policy) (h : List Byte) (hp : ParserHost h) :
    Decides p (canonicalHost h) (policyCheckHost p h) ↔
      h.length ≤ policyHostMax + 1 ∨ h.getLast? = some (ch '.') ∨
        SameCover p (cutHost h) (canonicalHost h) := by
  rw [(policyCheckHost_decides_cut hp).iff_sameCover]
  constructor
  · exact fun h => .inr (.inr h)
  · intro hc
    rcases or_assoc.2 hc with hc | hc
    · rw [cutHost_eq_canonicalHost hp hc]
      exact ⟨Iff.rfl, fun _ _ => Iff.rfl⟩
    · exact hc

/-- The condition met: a blocked subdomain of ordinary length. -/
theorem policyCheckHost_decides_short :
    Decides ⟨[⟨bytes "example.com", true⟩], [], false⟩ (canonicalHost (bytes "www.example.com"))
      (policyCheckHost ⟨[⟨bytes "example.com", true⟩], [], false⟩ (bytes "www.example.com")) :=
  (policyCheckHost_decides_iff _ _
    (.inl ⟨bytes "http://www.example.com/", ⟨bytes "www.example.com", 80, bytes "/"⟩, by decide, rfl⟩)).2
    (.inl (by decide))

/-- 255 bytes under `example.com`. -/
def longHost : List Byte := List.replicate 243 (ch 'a') ++ bytes ".example.com"

set_option maxRecDepth 20000 in
/-- The block rule `.example.com` covers `longHost`, and it is allowed: its
last byte does not fit the buffer, and no rule covers `…example.co`. -/
theorem policyCheckHost_long_host_allowed :
    ∃ p rep h, policyLoad { block := some (bytes ".example.com\n"), allow := none } = some (p, rep) ∧
      ParserHost h ∧ policyCheckHost p h = .allow ∧
      ¬ Decides p (canonicalHost h) (policyCheckHost p h) := by
  have hallow : policyCheckHost ⟨[⟨bytes "example.com", true⟩], [], false⟩ longHost = .allow := by
    decide +kernel
  refine ⟨⟨[⟨bytes "example.com", true⟩], [], false⟩, ⟨1, 0, 0, 0, false, true⟩, longHost,
    by decide +kernel, .inl ⟨bytes "http://" ++ longHost, ⟨longHost, 80, bytes "/"⟩, by decide +kernel, rfl⟩,
    hallow, fun h => ?_⟩
  have hcov : Covers ⟨bytes "example.com", true⟩ (canonicalHost longHost) :=
    .inr ⟨rfl, List.replicate 243 (ch 'a'), by decide +kernel, by decide +kernel⟩
  have := h.block.2 ⟨_, by simp, hcov⟩
  rw [hallow] at this
  cases this

end SecureProxy
