/-
Local names: `localhost`, and whatever ends in `.localhost` or `.local`. They
are refused before any lookup. The name that is looked at is the host cut to the
254 bytes of the normalisation buffer, so a host of 255 that loses the last byte
of its suffix is not found to be local, and is looked up.
-/
import SecureProxy.OriginConnectFacts
import SecureProxy.PolicyFacts

namespace SecureProxy

open Bytes

/-- The suffixes of local names. -/
def localSuffixes : List (List Byte) := [bytes ".localhost", bytes ".local"]

def LocalName (c : List Byte) : Prop :=
  c = bytes "localhost" ∨ ∃ suffix ∈ localSuffixes, ∃ pre, pre ≠ [] ∧ c = pre ++ suffix

theorem hostnameIsLocalName_iff {h : List Byte} (hp : ParserHost h) :
    hostnameIsLocalName h = true ↔ LocalName (cutHost h) := by
  unfold hostnameIsLocalName LocalName
  rw [normalizeHost_parserHost hp]
  simp only [Bool.or_eq_true, beq_iff_eq, List.any_eq_true, Bool.and_eq_true, decide_eq_true_eq, drop_eq_suffix_iff]
  rfl

theorem LocalName.last {c : List Byte} (h : LocalName c) : c.getLast? = some (ch 't') ∨ c.getLast? = some (ch 'l') := by
  have hends : ∀ suffix ∈ localSuffixes, suffix.getLast? = some (ch 't') ∨ suffix.getLast? = some (ch 'l') := by decide
  rcases h with rfl | ⟨suffix, hsuffix, pre, -, rfl⟩
  · decide
  · rw [List.getLast?_append]
    rcases hends suffix hsuffix with hl | hl
    · exact .inl (by rw [hl]; rfl)
    · exact .inr (by rw [hl]; rfl)

/-- Without its last byte a long local name is not one. -/
theorem LocalName.not_dropLast {l : List Byte} {b : Byte} (hlen : 9 ≤ l.length) (h : LocalName (l ++ [b])) :
    ¬ LocalName (l.rdropWhile isDot) := by
  have hcuts : ∀ suffix ∈ localSuffixes, suffix ≠ [] ∧ (suffix.dropLast.getLast? = some (ch 's') ∨
      suffix.dropLast.getLast? = some (ch 'a')) := by decide
  rcases h with heq | ⟨suffix, hsuffix, pre, -, heq⟩
  · have := congrArg List.length heq
    rw [List.length_append, length_bytes] at this
    simp at this
    omega
  · obtain ⟨hne, hcut⟩ := hcuts suffix hsuffix
    have hl : l = pre ++ suffix.dropLast := by
      rw [← List.dropLast_append_of_ne_nil hne, ← heq, List.dropLast_concat]
    have hlast : l.getLast? = some (ch 's') ∨ l.getLast? = some (ch 'a') := by
      rw [hl, List.getLast?_append]
      rcases hcut with hcut | hcut
      · exact .inl (by rw [hcut]; rfl)
      · exact .inr (by rw [hcut]; rfl)
    have hkeep : l.rdropWhile isDot = l := by
      rw [List.rdropWhile_eq_self_iff]
      intro hl hdot
      rw [List.getLast?_eq_some_getLast hl] at hlast
      rcases hlast with hlast | hlast
      · rw [Option.some.inj hlast] at hdot
        exact absurd hdot (by decide)
      · rw [Option.some.inj hlast] at hdot
        exact absurd hdot (by decide)
    intro hlocal
    rw [hkeep] at hlocal
    rcases hlocal.last with hend | hend <;> rcases hlast with hlast | hlast <;>
      exact absurd (hend.symm.trans hlast) (by decide)

/-- The cut of a host that loses a byte other than a dot. -/
theorem cutHost_long {h : List Byte} (hp : ParserHost h) (hlen : ¬ h.length ≤ policyHostMax + 1)
    (hlast : h.getLast? ≠ some (ch '.')) :
    ∃ l b, canonicalHost h = l ++ [b] ∧ cutHost h = l.rdropWhile isDot ∧ l.length = policyHostMax + 1 := by
  have hmax := hp.facts.2.1
  have hne : h ≠ [] := hp.facts.1
  obtain ⟨l, b, rfl⟩ : ∃ l b, h = l ++ [b] := ⟨_, _, (List.dropLast_append_getLast hne).symm⟩
  have hdot : ¬ isDot (toLower b) = true := by
    have hlower : ∀ b : Byte, isDot (toLower b) = true → b = ch '.' := forall_byte (by decide +kernel)
    intro hb
    rw [hlower b hb] at hlast
    simp at hlast
  have hll : l.length = policyHostMax + 1 := by
    simp only [List.length_append, List.length_singleton, maxHostLen, policyHostMax] at hmax hlen ⊢
    omega
  refine ⟨l.map toLower, toLower b, ?_, ?_, ?_⟩
  · rw [canonicalHost, List.map_append]
    exact List.rdropWhile_concat_neg _ _ _ hdot
  · rw [cutHost, ← hll, List.take_left]
    rfl
  · rw [List.length_map, hll]

/-- **Local names are recognised and never looked up**, for a host of at most
254 bytes, for one that ends with a dot, and otherwise exactly where neither the
host nor its first 254 bytes are a local name. -/
theorem hostnameIsLocalName_exact (h : List Byte) (hp : ParserHost h) :
    ((hostnameIsLocalName h = true ↔ LocalName (canonicalHost h)) ∧
      (LocalName (canonicalHost h) → ∀ env port, ∀ e ∈ (originConnect false env h port).trace, e.isDnsLookup = false)) ↔
    h.length ≤ policyHostMax + 1 ∨ h.getLast? = some (ch '.') ∨
      (¬ LocalName (canonicalHost h) ∧ ¬ LocalName (cutHost h)) := by
  have hlookup : hostnameIsLocalName h = true → ∀ env port, ∀ e ∈ (originConnect false env h port).trace,
      e.isDnsLookup = false := by
    intro hlocal env port
    simp [originConnect, hlocal]
  have hsame : (hostnameIsLocalName h = true ↔ LocalName (canonicalHost h)) ↔
      (LocalName (cutHost h) ↔ LocalName (canonicalHost h)) := by
    rw [hostnameIsLocalName_iff hp]
  have hred : ((hostnameIsLocalName h = true ↔ LocalName (canonicalHost h)) ∧
      (LocalName (canonicalHost h) → ∀ env port, ∀ e ∈ (originConnect false env h port).trace, e.isDnsLookup = false)) ↔
      (LocalName (cutHost h) ↔ LocalName (canonicalHost h)) :=
    ⟨fun h => hsame.1 h.1, fun h => ⟨hsame.2 h, fun hcanon => hlookup ((hsame.2 h).2 hcanon)⟩⟩
  rw [hred, ← or_assoc]
  by_cases hshort : h.length ≤ policyHostMax + 1 ∨ h.getLast? = some (ch '.')
  · rw [cutHost_eq_canonicalHost hp hshort]
    exact iff_of_true Iff.rfl (.inl hshort)
  · obtain ⟨hlen, hlast⟩ := not_or.1 hshort
    obtain ⟨l, b, hcanon, hcut, hl⟩ := cutHost_long hp hlen hlast
    have hnot := @LocalName.not_dropLast l b (by rw [hl]; decide)
    rw [hcanon, hcut]
    rw [or_iff_right hshort]
    refine ⟨fun h => ?_, fun h => iff_of_false h.2 h.1⟩
    have hcanon : ¬ LocalName (l ++ [b]) := fun hlocal => hnot hlocal (h.2 hlocal)
    exact ⟨hcanon, fun hlocal => hcanon (h.1 hlocal)⟩

theorem hostnameIsLocalName_exact_short :
    hostnameIsLocalName (bytes "printer.local..") = true ↔ LocalName (canonicalHost (bytes "printer.local..")) :=
  ((hostnameIsLocalName_exact _
    (.inl ⟨bytes "http://printer.local../", ⟨bytes "printer.local..", 80, bytes "/"⟩, by decide +kernel, rfl⟩)).2
    (.inl (by decide +kernel))).1

/-- 255 bytes under `localhost`. -/
def longLocalHost : List Byte := List.replicate 245 (ch 'a') ++ bytes ".localhost"

/-- It is not recognised, and is looked up. -/
theorem hostnameIsLocalName_long :
    ParserHost longLocalHost ∧ LocalName (canonicalHost longLocalHost) ∧ hostnameIsLocalName longLocalHost = false ∧
      ConnEvent.getaddrinfo false longLocalHost (bytes "80") ∈
        (originConnect false ⟨none, none, fun _ => ⟨none, false, .err, false, false, none⟩⟩ longLocalHost 80).trace := by
  refine ⟨.inl ⟨bytes "http://" ++ longLocalHost, ⟨longLocalHost, 80, bytes "/"⟩, by decide +kernel, rfl⟩,
    .inr ⟨bytes ".localhost", by decide, List.replicate 245 (ch 'a'), by decide +kernel, by decide +kernel⟩,
    by decide +kernel, by decide +kernel⟩

end SecureProxy
