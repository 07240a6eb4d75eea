/-
Rule lines as the policy's documentation has them, and what `parse_rule_line`
makes of them.

The text of a line is what stands before its `#`, blanks around it removed. The
code looks for the comment and for the end of the line in one go, and takes any
CR for the latter: a line with more text behind a CR is read as what stands
before the CR.
-/
import SecureProxy.Lib.Lines
import SecureProxy.Policy

namespace SecureProxy

open Bytes

/-- Whitespace around a text removed. -/
def trimSpace (s : List Byte) : List Byte := (s.dropWhile isSpace).rdropWhile isSpace

/-- The part of a line before its comment. -/
def beforeComment (line : List Byte) : List Byte := line.takeWhile (· != ch '#')

/-- What a line says. -/
def ruleText (line : List Byte) : List Byte := trimSpace (beforeComment line)

/-- `t` is a rule: an optional dot, and a hostname of 1 to 253 bytes without an
empty label, whatever dots follow. -/
def Spells (t : List Byte) (r : PolicyRule) : Prop :=
  ∃ host dots, t = (if r.includeSubdomains then [ch '.'] else []) ++ (host ++ dots) ∧ (∀ b ∈ dots, b = ch '.') ∧
    (1 ≤ host.length ∧ host.length ≤ 253) ∧ (∀ b ∈ host, isHostByte b = true) ∧ [] ∉ host.splitOn (ch '.') ∧
    r.host = host.map toLower

/-- What a line with the text `t` is to be taken for. -/
def Says (t : List Byte) : RuleLine → Prop
  | .blank => t = []
  | .rule r => Spells t r
  | .malformed => t ≠ [] ∧ ¬ ∃ r, Spells t r

/-! ## Trimming -/

theorem trimSpace_eq_nil_iff {s : List Byte} : trimSpace s = [] ↔ ∀ b ∈ s, isSpace b = true := by
  have hsplit := List.takeWhile_append_dropWhile (p := isSpace) (l := s)
  rw [trimSpace, List.rdropWhile_eq_nil_iff]
  refine ⟨fun h b hb => ?_, fun h b hb => h b ((List.dropWhile_sublist _).subset hb)⟩
  rw [← hsplit] at hb
  rcases List.mem_append.1 hb with hb | hb
  · exact List.mem_takeWhile_imp hb
  · exact h b hb

theorem rdropWhile_append {p : Byte → Bool} {xs ys : List Byte} :
    (xs ++ ys).rdropWhile p = if (ys.rdropWhile p).isEmpty then xs.rdropWhile p else xs ++ ys.rdropWhile p := by
  simp only [List.rdropWhile, List.reverse_append, List.dropWhile_append, List.isEmpty_reverse]
  split
  · rfl
  · simp

theorem trimSpace_append_blank {xs ys : List Byte} (h : ∀ b ∈ ys, isSpace b = true) :
    trimSpace (xs ++ ys) = trimSpace xs := by
  have hys : ∀ zs : List Byte, (∀ b ∈ zs, isSpace b = true) → zs.rdropWhile isSpace = [] := fun zs =>
    List.rdropWhile_eq_nil_iff.2
  rw [trimSpace, List.dropWhile_append]
  split
  · rename_i hnil
    rw [List.isEmpty_iff] at hnil
    rw [trimSpace, hnil, hys _ fun b hb => h b ((List.dropWhile_sublist _).subset hb)]
    rfl
  · rw [rdropWhile_append, hys ys h]
    rfl

/-- Text on both sides keeps what lies between. -/
theorem trimSpace_append_text {xs ys : List Byte} (hxs : trimSpace xs ≠ []) (hys : trimSpace ys ≠ []) :
    trimSpace (xs ++ ys) = xs.dropWhile isSpace ++ ys.rdropWhile isSpace := by
  have hx : xs.dropWhile isSpace ≠ [] := fun h => hxs (by rw [trimSpace, h]; rfl)
  have hy : ys.rdropWhile isSpace ≠ [] := fun h => hys (trimSpace_eq_nil_iff.2 (List.rdropWhile_eq_nil_iff.1 h))
  rw [trimSpace, List.dropWhile_append, if_neg (by simpa using hx), rdropWhile_append, if_neg (by simpa using hy)]

/-! ## Labels -/

theorem labelsOk_append {prev : Byte} {l : List Byte} (hl : ch '.' ∉ l) (s : List Byte) :
    labelsOk prev (l ++ s) = (l.all isHostByte && labelsOk (l.getLast?.getD prev) s) := by
  induction l generalizing prev with
  | nil => simp
  | cons c l ih =>
    obtain ⟨hc, hl⟩ := List.ne_and_not_mem_of_not_mem_cons hl
    have hlast : (c :: l).getLast?.getD prev = l.getLast?.getD c := by
      rw [List.getLast?_cons]
      rfl
    rw [List.cons_append, labelsOk, if_neg (fun h : c = _ ∧ _ => hc h.1.symm), ih hl, hlast, List.all_cons]
    cases isHostByte c <;> simp

/-- The scan finds what is not a hostname's byte, and the empty labels of a
name that does not end with a dot. -/
theorem labelsOk_iff {host : List Byte} (hne : host ≠ []) (hlast : host.getLast? ≠ some (ch '.')) :
    labelsOk (ch '.') host = true ↔ (∀ b ∈ host, isHostByte b = true) ∧ [] ∉ host.splitOn (ch '.') := by
  induction host using Lines.text_induction (ch '.') with
  | bare s hs =>
    rw [← List.append_nil s, labelsOk_append hs, List.append_nil, List.splitOn_eq_singleton hs]
    have hmem : [] ∉ [s] := by simpa using Ne.symm hne
    simp [labelsOk, hmem]
  | line l s hl ih =>
    have hs : s ≠ [] := by
      rintro rfl
      simp at hlast
    have hslast : s.getLast? ≠ some (ch '.') := by
      rw [List.getLast?_append, List.getLast?_cons_of_ne_nil hs] at hlast
      intro h
      rw [h] at hlast
      exact hlast rfl
    rw [labelsOk_append hl, List.splitOn_append_cons_self_of_not_mem hl]
    by_cases hnil : l = []
    · subst hnil
      simp [labelsOk]
    · obtain ⟨c, hc⟩ := Option.ne_none_iff_exists'.1 (mt List.getLast?_eq_none_iff.1 hnil)
      have hcdot : c ≠ ch '.' := fun h => hl (h ▸ List.mem_of_getLast? hc)
      have hdot : isHostByte (ch '.') = true := by decide
      have hstep : labelsOk (l.getLast?.getD (ch '.')) (ch '.' :: s) = labelsOk (ch '.') s := by
        simp [labelsOk, hc, hcdot, hdot]
      rw [hstep, Bool.and_eq_true, ih hs hslast, List.all_eq_true]
      simp only [List.mem_append, List.mem_cons, or_imp, forall_and, forall_eq, hdot, true_and, not_or]
      constructor
      · rintro ⟨h1, h2, h3⟩
        exact ⟨⟨h1, h2⟩, Ne.symm hnil, h3⟩
      · rintro ⟨⟨h1, h2⟩, -, h3⟩
        exact ⟨h1, h2, h3⟩

/-- Without an empty label, a name is not empty, and does not begin or end with
a dot. -/
theorem noEmptyLabel_ends {host : List Byte} (h : [] ∉ host.splitOn (ch '.')) :
    host ≠ [] ∧ host.head? ≠ some (ch '.') ∧ host.getLast? ≠ some (ch '.') := by
  refine ⟨?_, fun hh => ?_, fun hl => ?_⟩
  · rintro rfl
    simp at h
  · obtain ⟨s, rfl⟩ := List.head?_eq_some_iff.1 hh
    rw [← List.nil_append (ch '.' :: s), List.splitOn_append_cons_self] at h
    simp at h
  · obtain ⟨s, rfl⟩ := List.getLast?_eq_some_iff.1 hl
    rw [List.splitOn_append_cons_self] at h
    simp at h

theorem Spells.ne_nil {t : List Byte} {r : PolicyRule} (h : Spells t r) : t ≠ [] := by
  obtain ⟨host, dots, rfl, -, ⟨hpos, -⟩, -⟩ := h
  refine List.ne_nil_of_length_pos ?_
  simp only [List.length_append]
  omega

/-- A rule has hostname bytes only. -/
theorem Spells.hostBytes {t : List Byte} {r : PolicyRule} (h : Spells t r) : ∀ b ∈ t, isHostByte b = true := by
  obtain ⟨host, dots, rfl, hdots, -, hbytes, -⟩ := h
  have hdot : isHostByte (ch '.') = true := by decide
  intro b hb
  rcases List.mem_append.1 hb with hb | hb
  · split at hb
    · rw [List.mem_singleton.1 hb, hdot]
    · cases hb
  · rcases List.mem_append.1 hb with hb | hb
    · exact hbytes b hb
    · rw [hdots b hb, hdot]

/-- The host of a rule is what the code is left with. -/
theorem rdropWhile_dots {host dots : List Byte} (hdots : ∀ b ∈ dots, b = ch '.') (hlast : host.getLast? ≠ some (ch '.')) :
    (host ++ dots).rdropWhile isDot = host := by
  have hnil : dots.rdropWhile isDot = [] := List.rdropWhile_eq_nil_iff.2 fun b hb => by rw [hdots b hb]; decide
  rw [rdropWhile_append, hnil]
  refine List.rdropWhile_eq_self_iff.2 fun hne hdot => hlast ?_
  rw [List.getLast?_eq_some_getLast hne, Option.some.injEq]
  simpa [isDot] using hdot

/-- The rest of a rule's text behind its dot, as the code has it. -/
theorem parseRuleHost_body (t : List Byte) : ∃ subdomains body,
    t = (if subdomains then [ch '.'] else []) ++ body ∧ (subdomains = false → body.head? ≠ some (ch '.')) ∧
      parseRuleHost t =
        if (body.rdropWhile isDot).isEmpty || decide ((body.rdropWhile isDot).length > policyHostMax) then .malformed
        else if !labelsOk (ch '.') (body.rdropWhile isDot) then .malformed
        else .rule ⟨(body.rdropWhile isDot).map toLower, subdomains⟩ := by
  by_cases hdot : t.head? = some (ch '.')
  · obtain ⟨s, rfl⟩ := List.head?_eq_some_iff.1 hdot
    exact ⟨true, s, rfl, by simp, rfl⟩
  · have hbeq : (t.head? == some (ch '.')) = false := by simpa using hdot
    refine ⟨false, t, rfl, fun _ => hdot, ?_⟩
    rw [parseRuleHost, hbeq]
    rfl

theorem getLast?_rdropWhile_isDot (body : List Byte) : (body.rdropWhile isDot).getLast? ≠ some (ch '.') := by
  intro hl
  have hne : body.rdropWhile isDot ≠ [] := by
    intro hnil
    rw [hnil] at hl
    cases hl
  have hnot := List.rdropWhile_last_not isDot body hne
  rw [List.getLast?_eq_some_getLast hne, Option.some.injEq] at hl
  rw [hl] at hnot
  exact hnot (by decide)

/-- The dot in front, if there is one, can be told from what follows it. -/
theorem leadingDot_inj {sub sub' : Bool} {body body' : List Byte}
    (h : (if sub then [ch '.'] else []) ++ body = (if sub' then [ch '.'] else []) ++ body')
    (hbody : sub = false → body.head? ≠ some (ch '.')) (hbody' : sub' = false → body'.head? ≠ some (ch '.')) :
    sub = sub' ∧ body = body' := by
  cases sub with
  | true =>
    cases sub' with
    | true => exact ⟨rfl, by simpa using h⟩
    | false => exact absurd (by simpa using congrArg List.head? h.symm) (hbody' rfl)
  | false =>
    cases sub' with
    | true => exact absurd (by simpa using congrArg List.head? h) (hbody rfl)
    | false => exact ⟨rfl, by simpa using h⟩

theorem parseRuleHost_rule {t : List Byte} {r : PolicyRule} : parseRuleHost t = .rule r ↔ Spells t r := by
  obtain ⟨subdomains, body, ht, hhead, hparse⟩ := parseRuleHost_body t
  rw [hparse]
  constructor
  · intro h
    split at h
    · cases h
    · rename_i hlen
      split at h
      · cases h
      · rename_i hlabels
        obtain rfl := RuleLine.rule.inj h
        simp only [Bool.or_eq_true, List.isEmpty_iff, decide_eq_true_eq, not_or] at hlen
        obtain ⟨hbytes, hempty⟩ :=
          (labelsOk_iff hlen.1 (getLast?_rdropWhile_isDot body)).1 (by simpa using hlabels)
        refine ⟨body.rdropWhile isDot, body.rtakeWhile isDot, ?_, fun b hb => ?_,
          ⟨List.length_pos_iff.2 hlen.1, Nat.not_lt.1 hlen.2⟩, hbytes, hempty, rfl⟩
        · rw [List.rdropWhile_append_rtakeWhile]
          exact ht
        · simpa [isDot] using List.mem_rtakeWhile_imp hb
  · rintro ⟨host, dots, ht', hdots, ⟨hpos, hmax⟩, hbytes, hempty, hhost⟩
    obtain ⟨hne, hfirst, hlast⟩ := noEmptyLabel_ends hempty
    have hstart : (host ++ dots).head? ≠ some (ch '.') := by
      rw [List.head?_append_of_ne_nil _ hne]
      exact hfirst
    obtain ⟨rfl, rfl⟩ := leadingDot_inj (ht.symm.trans ht') hhead fun _ => hstart
    rw [rdropWhile_dots hdots hlast, if_neg (by simp [hne, policyHostMax, hmax]),
      if_neg (by simp [(labelsOk_iff hne hlast).2 ⟨hbytes, hempty⟩]), ← hhost]

theorem parseRuleHost_ne_blank (t : List Byte) : parseRuleHost t ≠ .blank := by
  obtain ⟨subdomains, body, -, -, hparse⟩ := parseRuleHost_body t
  rw [hparse]
  split
  · simp
  · split <;> simp

/-! ## Lines -/

/-- The part of a line the code reads. -/
def readPart (line : List Byte) : List Byte := (beforeComment line).takeWhile (· != ch '\r')

theorem readPart_append (line : List Byte) :
    readPart line ++ (beforeComment line).dropWhile (· != ch '\r') = beforeComment line :=
  List.takeWhile_append_dropWhile

/-- A text says one thing. -/
theorem Says.unique {t : List Byte} {o o' : RuleLine} (h : Says t o) (h' : Says t o') : o = o' := by
  cases o with
  | blank =>
    cases o' with
    | blank => rfl
    | malformed => exact absurd h h'.1
    | rule r => exact absurd h (Spells.ne_nil h')
  | malformed =>
    cases o' with
    | blank => exact absurd h' h.1
    | malformed => rfl
    | rule r => exact absurd ⟨r, h'⟩ h.2
  | rule r =>
    cases o' with
    | blank => exact absurd h' (Spells.ne_nil h)
    | malformed => exact absurd ⟨r, h⟩ h'.2
    | rule r' => exact (parseRuleHost_rule.2 h).symm.trans (parseRuleHost_rule.2 h')

theorem takeWhile_congr {p q : Byte → Bool} {l : List Byte} (h : ∀ b ∈ l, p b = q b) : l.takeWhile p = l.takeWhile q := by
  induction l with
  | nil => rfl
  | cons b l ih =>
    rw [List.takeWhile_cons, List.takeWhile_cons, h b (by simp), ih fun b hb => h b (by simp [hb])]

/-- `parse_rule_line` takes a line for what the part before its first CR says. -/
theorem parseRuleLine_says {line : List Byte} (hlen : line.length ≤ 1022) (hlf : ch '\n' ∉ line) :
    Says (trimSpace (readPart line)) (parseRuleLine line) := by
  have hbuf : (line.takeWhile fun c => c != ch '#' && c != ch '\r' && c != ch '\n') = readPart line := by
    rw [readPart, beforeComment, List.takeWhile_takeWhile]
    refine takeWhile_congr fun b hb => ?_
    have hb : b ≠ ch '\n' := fun h => hlf (h ▸ hb)
    rw [Bool.eq_iff_iff]
    simp [hb, and_comm]
  have hshort : (readPart line).length < policyLineMax := by
    have hpart : List.Sublist (readPart line) line := (List.takeWhile_sublist _).trans (List.takeWhile_sublist _)
    have hle := hpart.length_le
    rw [policyLineMax]
    omega
  rw [parseRuleLine, hbuf]
  dsimp only
  rw [if_neg (by omega)]
  change Says (trimSpace (readPart line)) (if (trimSpace (readPart line)).isEmpty then _ else parseRuleHost (trimSpace (readPart line)))
  split
  · rename_i hnil
    exact List.isEmpty_iff.1 hnil
  · rename_i hne
    cases ho : parseRuleHost (trimSpace (readPart line)) with
    | blank => exact absurd ho (parseRuleHost_ne_blank _)
    | malformed =>
      refine ⟨by simpa using hne, fun hr => ?_⟩
      obtain ⟨r, hr⟩ := hr
      rw [parseRuleHost_rule.2 hr] at ho
      cases ho
    | rule r => exact parseRuleHost_rule.1 ho

/-- Text behind a CR: the line then says nothing that is a rule. -/
theorem ruleText_behind_cr {line : List Byte}
    (hbehind : ¬ ∀ b ∈ (beforeComment line).dropWhile (· != ch '\r'), isSpace b = true) :
    ruleText line ≠ [] ∧ (trimSpace (readPart line) ≠ [] → ¬ ∃ r, Spells (ruleText line) r) := by
  have hsplit := readPart_append line
  generalize hrest : (beforeComment line).dropWhile (· != ch '\r') = rest at hbehind hsplit
  obtain ⟨more, rfl⟩ : ∃ more, rest = ch '\r' :: more := by
    cases rest with
    | nil => simp at hbehind
    | cons c more =>
      have hc := List.head?_dropWhile_not (· != ch '\r') (beforeComment line)
      rw [hrest] at hc
      exact ⟨more, by simpa using hc⟩
  refine ⟨fun hnil => hbehind fun b hb => ?_, fun htext => ?_⟩
  · exact trimSpace_eq_nil_iff.1 hnil b (by rw [← hsplit]; exact List.mem_append_right _ hb)
  · have hmore : more.rdropWhile isSpace ≠ [] := fun h =>
      hbehind (List.forall_mem_cons.2 ⟨by decide, List.rdropWhile_eq_nil_iff.1 h⟩)
    -- the CR stays inside the text
    have hcr : ch '\r' ∈ ruleText line := by
      rw [ruleText, ← hsplit, trimSpace_append_text htext (mt trimSpace_eq_nil_iff.1 hbehind), ← List.singleton_append,
        rdropWhile_append, if_neg (by simpa using hmore)]
      simp
    rintro ⟨r, hr⟩
    exact absurd (hr.hostBytes _ hcr) (by decide)

/-- **A rule line is read as documented exactly where a CR hides nothing**: what
follows the first CR before the comment is blank, or what stands before it is
malformed already. -/
theorem parseRuleLine_documented (line : List Byte) (hlen : line.length ≤ 1022) (hlf : ch '\n' ∉ line) :
    (∀ o, parseRuleLine line = o ↔ Says (ruleText line) o) ↔
      (∀ b ∈ (beforeComment line).dropWhile (· != ch '\r'), isSpace b = true) ∨ Says (trimSpace (readPart line)) .malformed := by
  have hline := parseRuleLine_says hlen hlf
  have hone : (∀ o, parseRuleLine line = o ↔ Says (ruleText line) o) ↔ Says (ruleText line) (parseRuleLine line) :=
    ⟨fun h => (h _).1 rfl, fun h o => ⟨fun ho => ho ▸ h, fun ho => h.unique ho⟩⟩
  rw [hone]
  by_cases hblank : ∀ b ∈ (beforeComment line).dropWhile (· != ch '\r'), isSpace b = true
  · have hsame : ruleText line = trimSpace (readPart line) := by
      rw [ruleText, ← readPart_append, trimSpace_append_blank hblank]
    rw [hsame]
    exact iff_of_true hline (.inl hblank)
  · obtain ⟨hne, hnone⟩ := ruleText_behind_cr hblank
    rw [or_iff_right hblank]
    constructor
    · intro h
      generalize parseRuleLine line = o at h hline
      cases o with
      | blank => exact absurd h hne
      | malformed => exact hline
      | rule r => exact absurd ⟨r, h⟩ (hnone (Spells.ne_nil hline))
    · intro hmal
      rw [hline.unique hmal]
      exact ⟨hne, hnone hmal.1⟩

theorem parseRuleLine_documented_comment :
    parseRuleLine (bytes " .Example.COM.  # ours\r") = .rule ⟨bytes "example.com", true⟩ ↔
      Says (ruleText (bytes " .Example.COM.  # ours\r")) (.rule ⟨bytes "example.com", true⟩) :=
  (parseRuleLine_documented _ (by decide +kernel) (by decide +kernel)).2 (.inl (by decide +kernel)) _

/-- A CR inside a line hides what follows: the line is not a rule, and is taken
for one. -/
theorem parseRuleLine_stray_cr :
    let line := bytes "example.com\rfoo"
    parseRuleLine line = .rule ⟨bytes "example.com", false⟩ ∧ ¬ Says (ruleText line) (parseRuleLine line) := by
  intro line
  have hrule : parseRuleLine line = .rule ⟨bytes "example.com", false⟩ := by decide +kernel
  have hcr : ch '\r' ∈ ruleText line := by decide +kernel
  refine ⟨hrule, fun hline => ?_⟩
  rw [hrule] at hline
  exact absurd (Spells.hostBytes hline _ hcr) (by decide)

end SecureProxy
