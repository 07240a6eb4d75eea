/-
A policy file is its lines. `load_file` sees them through a buffer of 1024
bytes, and for every line does one turn of its loop: a line that does not fit
the buffer is malformed and skipped to its end, every other is read as a rule
line.

Allowlist mode goes by what the loop has seen, which is not quite the text of
the file: a line that does not fit counts as text even if it is a comment, and
what stands behind a CR does not count.
-/
import SecureProxy.PolicyLines
import SecureProxy.ReputationPrivacy

namespace SecureProxy

open Bytes

/-- The lines of a file. -/
def fileLines (file : List Byte) : List (List Byte) := Lines.lines (ch '\n') file

/-- A line that does not fit the buffer, with its LF and the NUL. -/
def overlong (line : List Byte) : Bool := decide (1022 < line.length)

/-- What one line adds; `none` when the `realloc` for its rule fails. -/
def loadLine (alloc : Nat → Bool) (st : LoadState) (line : List Byte) : Option LoadState :=
  if overlong line then some { st with malformed := st.malformed + 1, sawText := true }
  else match parseRuleLine line with
    | .blank => some st
    | .malformed => some { st with malformed := st.malformed + 1, sawText := true }
    | .rule r =>
      if alloc st.rules.length then
        some { st with rules := st.rules ++ [r], loaded := st.loaded + 1, sawText := true }
      else none

theorem overlong_eq_true {line : List Byte} : overlong line = true ↔ policyLineMax - 1 ≤ line.length :=
  decide_eq_true_iff

theorem overlong_eq_false {line : List Byte} : overlong line = false ↔ line.length < policyLineMax - 1 := by
  rw [← Bool.not_eq_true, overlong_eq_true, Nat.not_le]

/-! ## Reading a line -/

section

variable {l : List Byte} {room : Nat}

theorem fgetsLine_line (hl : ch '\n' ∉ l) (hroom : l.length < room) (s : List Byte) :
    fgetsLine room (l ++ ch '\n' :: s) = (l ++ [ch '\n'], s) := by
  induction l generalizing room with
  | nil =>
    obtain ⟨n, rfl⟩ := Nat.exists_eq_add_of_lt hroom
    simp [fgetsLine]
  | cons c l ih =>
    obtain ⟨hc, hl⟩ := List.ne_and_not_mem_of_not_mem_cons hl
    obtain ⟨n, rfl⟩ : ∃ n, room = n + 1 := ⟨room - 1, by omega⟩
    rw [List.cons_append, fgetsLine, if_neg (Ne.symm hc), ih hl (by simpa using hroom)]
    rfl

/-- As much of a line as there is room for. -/
theorem fgetsLine_cut (hl : ch '\n' ∉ l) (hroom : room ≤ l.length) (s : List Byte) :
    fgetsLine room (l ++ s) = (l.take room, l.drop room ++ s) := by
  induction l generalizing room with
  | nil =>
    obtain rfl : room = 0 := by simpa using hroom
    rfl
  | cons c l ih =>
    obtain ⟨hc, hl⟩ := List.ne_and_not_mem_of_not_mem_cons hl
    cases room with
    | zero => rfl
    | succ room =>
      rw [List.cons_append, fgetsLine, if_neg (Ne.symm hc), ih hl (by simpa using hroom)]
      rfl

theorem fgetsLine_end (hl : ch '\n' ∉ l) (hroom : l.length ≤ room) : fgetsLine room l = (l, []) := by
  induction l generalizing room with
  | nil => cases room <;> rfl
  | cons c l ih =>
    obtain ⟨hc, hl⟩ := List.ne_and_not_mem_of_not_mem_cons hl
    obtain ⟨n, rfl⟩ : ∃ n, room = n + 1 := ⟨room - 1, by simp at hroom; omega⟩
    rw [fgetsLine, if_neg (Ne.symm hc), ih hl (by simpa using hroom)]

theorem skipLine_line (hl : ch '\n' ∉ l) (s : List Byte) : skipLine (l ++ ch '\n' :: s) = s := by
  simp [skipLine, List.dropWhile_append_of_pos (Lines.ne_sep hl)]

theorem skipLine_end (hl : ch '\n' ∉ l) : skipLine l = [] := by
  rw [skipLine, List.dropWhile_eq_nil_iff.2 (Lines.ne_sep hl)]
  rfl

end

/-- The LF of a line is not read. -/
theorem parseRuleLine_lf (l : List Byte) : parseRuleLine (l ++ [ch '\n']) = parseRuleLine l := by
  have hbuf : ((l ++ [ch '\n']).takeWhile fun c => c != ch '#' && c != ch '\r' && c != ch '\n') =
      l.takeWhile fun c => c != ch '#' && c != ch '\r' && c != ch '\n' := by
    rw [List.takeWhile_append]
    split
    · rename_i hall
      rw [List.takeWhile_cons, if_neg (by simp), List.append_nil, List.takeWhile_prefix _ |>.eq_of_length hall]
    · rfl
  unfold parseRuleLine
  rw [hbuf]

/-! ## The loop -/

section

variable {alloc : Nat → Bool}

/-- A turn whose line does not fit. -/
theorem loadLines_overlong {file raw rest : List Byte} {fuel : Nat} {st : LoadState} (hne : file ≠ [])
    (hget : fgetsLine (policyLineMax - 1) file = (raw, rest)) (hnul : 0 ∉ raw)
    (hlong : raw.length = policyLineMax - 1) (hlf : ch '\n' ∉ raw) :
    loadLines alloc (fuel + 1) file st =
      loadLines alloc fuel (skipLine rest) { st with malformed := st.malformed + 1, sawText := true } := by
  obtain ⟨c, file, rfl⟩ := List.exists_cons_of_ne_nil hne
  have hlast : raw.getLast? ≠ some (ch '\n') := fun h => hlf (List.mem_of_getLast? h)
  rw [loadLines, hget]
  dsimp only
  rw [Lines.takeWhile_bare hnul, if_pos ⟨hlong, hlast⟩]

/-- A turn whose line does. -/
theorem loadLines_fits {file raw rest l : List Byte} {fuel : Nat} {st : LoadState} (hne : file ≠ [])
    (hget : fgetsLine (policyLineMax - 1) file = (raw, rest)) (hnul : 0 ∉ raw) (hfits : overlong l = false)
    (hraw : raw = l ++ [ch '\n'] ∨ raw = l) :
    loadLines alloc (fuel + 1) file st = (loadLine alloc st l).bind (loadLines alloc fuel rest) := by
  obtain ⟨c, file, rfl⟩ := List.exists_cons_of_ne_nil hne
  have hlen := overlong_eq_false.1 hfits
  have hshort : ¬ (raw.length = policyLineMax - 1 ∧ raw.getLast? ≠ some (ch '\n')) := by
    rintro ⟨hlong, hlast⟩
    rcases hraw with rfl | rfl
    · simp at hlast
    · omega
  have hparse : parseRuleLine raw = parseRuleLine l := by
    rcases hraw with rfl | rfl
    · exact parseRuleLine_lf l
    · rfl
  rw [loadLines, hget]
  dsimp only
  rw [Lines.takeWhile_bare hnul, if_neg hshort, hparse, loadLine, if_neg (by simp [hfits])]
  cases parseRuleLine l with
  | blank => rfl
  | malformed => rfl
  | rule r =>
    dsimp only
    split <;> rfl

/-- **`load_file` does one turn for every line.** -/
theorem loadLines_foldlM {file : List Byte} {fuel : Nat} (hfuel : file.length ≤ fuel) (hnul : 0 ∉ file) (st : LoadState) :
    loadLines alloc fuel file st = (fileLines file).foldlM (loadLine alloc) st := by
  induction file using Lines.text_induction (ch '\n') generalizing fuel st with
  | bare l hl =>
    rw [fileLines, Lines.lines_bare hl]
    by_cases hnil : l = []
    · subst hnil
      cases fuel <;> rfl
    · have hpos := List.length_pos_iff.2 hnil
      obtain ⟨fuel, rfl⟩ : ∃ n, fuel = n + 1 := ⟨fuel - 1, by omega⟩
      have hdone : ∀ st, loadLines alloc fuel [] st = some st := fun st => by cases fuel <;> rfl
      rw [if_neg hnil, List.foldlM_cons]
      cases hfits : overlong l with
      | true =>
        have hlong := overlong_eq_true.1 hfits
        have hget := fgetsLine_cut hl hlong []
        rw [List.append_nil, List.append_nil] at hget
        rw [loadLines_overlong hnil hget (fun h => hnul (List.mem_of_mem_take h)) (by rw [List.length_take]; omega)
          (fun h => hl (List.mem_of_mem_take h)), skipLine_end (fun h => hl (List.mem_of_mem_drop h)), hdone, loadLine,
          if_pos hfits]
        rfl
      | false =>
        have hget := fgetsLine_end hl (Nat.le_of_lt (overlong_eq_false.1 hfits))
        rw [loadLines_fits hnil hget hnul hfits (.inr rfl)]
        exact congrArg _ (funext hdone)
  | line l s hl ih =>
    have hnul_l : 0 ∉ l := fun h => hnul (List.mem_append_left _ h)
    have hnul_s : 0 ∉ s := fun h => hnul (List.mem_append_right _ (List.mem_cons_of_mem _ h))
    rw [List.length_append, List.length_cons] at hfuel
    obtain ⟨fuel, rfl⟩ : ∃ n, fuel = n + 1 := ⟨fuel - 1, by omega⟩
    rw [fileLines, Lines.lines_line hl, List.foldlM_cons]
    cases hfits : overlong l with
    | true =>
      have hlong := overlong_eq_true.1 hfits
      rw [loadLines_overlong (by simp) (fgetsLine_cut hl hlong _) (fun h => hnul_l (List.mem_of_mem_take h))
        (by rw [List.length_take]; omega) (fun h => hl (List.mem_of_mem_take h)),
        skipLine_line (fun h => hl (List.mem_of_mem_drop h)), ih (by omega) hnul_s, loadLine, if_pos hfits]
      rfl
    | false =>
      have hraw : 0 ∉ l ++ [ch '\n'] := by simpa [hnul_l] using (by decide : (0 : Byte) ≠ ch '\n')
      rw [loadLines_fits (by simp) (fgetsLine_line hl (overlong_eq_false.1 hfits) s) hraw hfits (.inl rfl)]
      exact congrArg _ (funext fun st => ih (by omega) hnul_s st)

end

/-! ## What the lines come to -/

/-- The rule of a line. -/
def lineRule (line : List Byte) : Option PolicyRule :=
  if overlong line then none
  else match parseRuleLine line with
    | .rule r => some r
    | _ => none

def lineMalformed (line : List Byte) : Bool := overlong line || parseRuleLine line == .malformed

def lineIgnored (line : List Byte) : Bool := !overlong line && parseRuleLine line == .blank

theorem line_cases (line : List Byte) :
    (∃ r, lineRule line = some r ∧ lineMalformed line = false ∧ lineIgnored line = false) ∨
      (lineRule line = none ∧ lineMalformed line = true ∧ lineIgnored line = false) ∨
      (lineRule line = none ∧ lineMalformed line = false ∧ lineIgnored line = true) := by
  unfold lineRule lineMalformed lineIgnored
  cases overlong line with
  | true => simp
  | false =>
    cases parseRuleLine line with
    | blank => exact .inr (.inr ⟨rfl, rfl, rfl⟩)
    | malformed => exact .inr (.inl ⟨rfl, rfl, rfl⟩)
    | rule r => exact .inl ⟨r, rfl, rfl, rfl⟩

/-- The state with one line more, where there is memory for its rule. -/
def LoadState.add (st : LoadState) (line : List Byte) : LoadState :=
  { rules := st.rules ++ (lineRule line).toList
    loaded := st.loaded + (lineRule line).toList.length
    malformed := st.malformed + (lineMalformed line).toNat
    sawText := st.sawText || !lineIgnored line }

theorem loadLine_add (alloc : Nat → Bool) (st : LoadState) (line : List Byte) :
    loadLine alloc st line = if (lineRule line).isSome && !alloc st.rules.length then none else some (st.add line) := by
  unfold loadLine LoadState.add lineRule lineMalformed lineIgnored
  cases overlong line with
  | true => simp
  | false =>
    cases parseRuleLine line with
    | blank =>
      have hne : (RuleLine.blank == RuleLine.malformed) = false := rfl
      simp [hne]
    | malformed => simp
    | rule r => cases alloc st.rules.length <;> simp

/-- A load that ends has taken in every line. -/
theorem foldlM_loadLine {alloc : Nat → Bool} {lines : List (List Byte)} {st st' : LoadState}
    (h : lines.foldlM (loadLine alloc) st = some st') : st' = lines.foldl LoadState.add st := by
  induction lines generalizing st with
  | nil => exact (Option.some.inj h).symm
  | cons line lines ih =>
    rw [List.foldlM_cons, loadLine_add] at h
    split at h
    · cases h
    · exact ih h

/-- It ends where there is memory. -/
theorem foldlM_loadLine_alloc (lines : List (List Byte)) (st : LoadState) :
    lines.foldlM (loadLine fun _ => true) st = some (lines.foldl LoadState.add st) := by
  induction lines generalizing st with
  | nil => rfl
  | cons line lines ih =>
    rw [List.foldlM_cons, loadLine_add, if_neg (by simp)]
    exact ih _

theorem foldl_add (lines : List (List Byte)) (st : LoadState) :
    lines.foldl LoadState.add st =
      { rules := st.rules ++ lines.filterMap lineRule
        loaded := st.loaded + (lines.filterMap lineRule).length
        malformed := st.malformed + lines.countP lineMalformed
        sawText := st.sawText || lines.any (!lineIgnored ·) } := by
  induction lines generalizing st with
  | nil => simp
  | cons line lines ih =>
    rw [List.foldl_cons, ih, LoadState.add]
    rcases line_cases line with ⟨r, hr, hm, hi⟩ | ⟨hr, hm, hi⟩ | ⟨hr, hm, hi⟩
    · simp [hr, hm, hi]
      omega
    · simp [hr, hm, hi]
      omega
    · simp [hr, hm, hi]

/-- Every line is a rule, malformed, or ignored. -/
theorem length_lines (lines : List (List Byte)) :
    (lines.filterMap lineRule).length + lines.countP lineMalformed + lines.countP lineIgnored = lines.length := by
  induction lines with
  | nil => rfl
  | cons line lines ih =>
    rcases line_cases line with ⟨r, hr, hm, hi⟩ | ⟨hr, hm, hi⟩ | ⟨hr, hm, hi⟩ <;>
      simp [hr, hm, hi] <;> omega

/-! ## The hosts of the rules -/

theorem splitOn_map_toLower (host : List Byte) :
    (host.map toLower).splitOn (ch '.') = (host.splitOn (ch '.')).map (List.map toLower) := by
  have hbare : ∀ s : List Byte, ch '.' ∉ s → ch '.' ∉ s.map toLower := by
    intro s hs h
    obtain ⟨b, hb, heq⟩ := List.mem_map.1 h
    exact hs (toLower_eq_dot.1 heq ▸ hb)
  induction host using Lines.text_induction (ch '.') with
  | bare s hs => rw [List.splitOn_eq_singleton hs, List.splitOn_eq_singleton (hbare s hs)]; rfl
  | line l s hl ih =>
    have hlower : toLower (ch '.') = ch '.' := by decide
    rw [List.splitOn_append_cons_self_of_not_mem hl, List.map_append, List.map_cons, hlower,
      List.splitOn_append_cons_self_of_not_mem (hbare l hl), ih]
    rfl

theorem Spells.bareHost {t : List Byte} {r : PolicyRule} (h : Spells t r) : BareHost r.host := by
  obtain ⟨host, dots, -, -, ⟨hpos, hmax⟩, hbytes, hlabels, hhost⟩ := h
  rw [hhost]
  refine ⟨?_, by rw [List.length_map]; exact hmax, fun b hb => ?_, fun label hlabel hnil => hlabels ?_⟩
  · rw [ne_eq, List.map_eq_nil_iff]
    exact List.ne_nil_of_length_pos hpos
  · obtain ⟨b', hb', rfl⟩ := List.mem_map.1 hb
    exact isBareByte_toLower (hbytes b' hb')
  · rw [splitOn_map_toLower] at hlabel
    obtain ⟨label', hlabel', rfl⟩ := List.mem_map.1 hlabel
    rwa [List.map_eq_nil_iff.1 hnil] at hlabel'

theorem lineRule_bareHost {line : List Byte} {r : PolicyRule} (hlf : ch '\n' ∉ line) (h : lineRule line = some r) :
    BareHost r.host := by
  unfold lineRule at h
  split at h
  · cases h
  · rename_i hfits
    have hline := parseRuleLine_says (by simpa [overlong] using hfits) hlf
    split at h
    · rename_i r' hr
      obtain rfl := Option.some.inj h
      rw [hr] at hline
      exact Spells.bareHost hline
    · cases h

/-- What is loaded from a file, given the memory for it. -/
theorem loadFile_rules {alloc : Nat → Bool} {file : List Byte} {st : LoadState} {missing : Bool}
    (h : loadFile alloc (some file) = some (st, missing)) (hnul : 0 ∉ file) :
    st.rules = (fileLines file).filterMap lineRule ∧ st.sawText = (fileLines file).any (!lineIgnored ·) := by
  simp only [loadFile, loadLines_foldlM le_rfl hnul, Option.map_eq_some_iff, Prod.mk.injEq] at h
  obtain ⟨st, hst, rfl, -⟩ := h
  rw [foldlM_loadLine hst, foldl_add]
  exact ⟨rfl, rfl⟩

/-! ## Allowlist mode -/

/-- The line says something: not only blanks before its comment. -/
def HasText (line : List Byte) : Prop := ruleText line ≠ []

/-- It says something before its first CR. -/
def ShowsText (line : List Byte) : Prop := trimSpace (readPart line) ≠ []

instance (line : List Byte) : Decidable (HasText line) := inferInstanceAs (Decidable (_ ≠ _))

instance (line : List Byte) : Decidable (ShowsText line) := inferInstanceAs (Decidable (_ ≠ _))

theorem ShowsText.hasText {line : List Byte} (h : ShowsText line) : HasText line := by
  intro hnil
  refine h (trimSpace_eq_nil_iff.2 fun b hb => trimSpace_eq_nil_iff.1 hnil b ?_)
  rw [← readPart_append]
  exact List.mem_append_left _ hb

/-- A line is ignored when it fits and shows no text. -/
theorem lineIgnored_iff {line : List Byte} (hlf : ch '\n' ∉ line) :
    lineIgnored line = true ↔ ¬ (overlong line = true ∨ ShowsText line) := by
  rw [lineIgnored, Bool.and_eq_true, Bool.not_eq_true', beq_iff_eq, not_or, Bool.not_eq_true]
  refine and_congr_right fun hfits => ?_
  have hline := parseRuleLine_says (by simpa [overlong] using hfits) hlf
  rw [ShowsText, not_not]
  constructor
  · intro hblank
    rw [hblank] at hline
    exact hline
  · intro hnil
    exact hline.unique hnil

/-- What the loop takes for text. -/
theorem sawText_iff (file : List Byte) :
    (fileLines file).any (!lineIgnored ·) = true ↔ ∃ line ∈ fileLines file, overlong line = true ∨ ShowsText line := by
  rw [List.any_eq_true]
  refine exists_congr fun line => and_congr_right fun hline => ?_
  rw [Bool.not_eq_true', ← Bool.not_eq_true, lineIgnored_iff (Lines.mem_lines hline).1, not_not]

theorem policyLoad_sawText {files : PolicyFiles} {file : List Byte} {p : Policy} {report : PolicyLoadReport}
    (hfile : files.allow = some file) (hnul : 0 ∉ file) (hload : policyLoad files = some (p, report)) :
    p.allowlistActive = (fileLines file).any (!lineIgnored ·) := by
  simp only [policyLoad, hfile, loadFile, Option.bind_eq_bind, Option.bind_eq_some_iff, Option.map_eq_some_iff, Option.pure_def,
    Option.some.injEq] at hload
  obtain ⟨block, -, allow, ⟨st, hst, rfl⟩, heq⟩ := hload
  obtain ⟨rfl, -⟩ := Prod.mk.inj heq
  rw [loadLines_foldlM le_rfl hnul] at hst
  rw [foldlM_loadLine hst, foldl_add]
  rfl

/-- **Allowlist mode is on exactly where the file has text**, if some line shows
text before its first CR; if none does, where there is a line with text exactly
if there is one that does not fit the buffer. -/
theorem policyLoad_allowlistActive (files : PolicyFiles) (file : List Byte) (p : Policy) (report : PolicyLoadReport)
    (hfile : files.allow = some file) (hnul : 0 ∉ file) (hload : policyLoad files = some (p, report)) :
    (p.allowlistActive = true ↔ ∃ line ∈ fileLines file, HasText line) ↔
      (∃ line ∈ fileLines file, ShowsText line) ∨
        ((∃ line ∈ fileLines file, HasText line) ↔ ∃ line ∈ fileLines file, overlong line = true) := by
  have hactive : p.allowlistActive = true ↔ ∃ line ∈ fileLines file, overlong line = true ∨ ShowsText line := by
    rw [← sawText_iff, policyLoad_sawText hfile hnul hload]
  rw [hactive]
  by_cases hshows : ∃ line ∈ fileLines file, ShowsText line
  · obtain ⟨line, hline, htext⟩ := hshows
    exact iff_of_true (iff_of_true ⟨line, hline, .inr htext⟩ ⟨line, hline, htext.hasText⟩) (.inl ⟨line, hline, htext⟩)
  · rw [or_iff_right hshows]
    have hnone : ∀ line ∈ fileLines file, (overlong line = true ∨ ShowsText line ↔ overlong line = true) := by
      intro line hline
      exact or_iff_left fun htext => hshows ⟨line, hline, htext⟩
    rw [exists_congr fun line => and_congr_right (hnone line)]
    exact iff_comm

theorem policyLoad_allowlistActive_typo :
    ∃ p report, policyLoad { block := none, allow := some (bytes "# ours\n*.example.com\n") } = some (p, report) ∧
      p.allowlistActive = true := by
  have hload : policyLoad { block := none, allow := some (bytes "# ours\n*.example.com\n") } =
      some (⟨[], [], true⟩, ⟨0, 0, 0, 1, true, false⟩) := by decide +kernel
  have hiff := policyLoad_allowlistActive _ (bytes "# ours\n*.example.com\n") _ _ rfl (by decide +kernel) hload
  refine ⟨_, _, hload, (hiff.2 (.inl ⟨bytes "*.example.com", ?_, ?_⟩)).2 ⟨bytes "*.example.com", ?_, ?_⟩⟩
  · decide +kernel
  · decide +kernel
  · decide +kernel
  · decide +kernel

/-- A comment of 1023 bytes turns allowlist mode on. -/
theorem policyLoad_allowlistActive_comment :
    let file := List.replicate 1023 (ch '#')
    ∃ p report, policyLoad { block := none, allow := some file } = some (p, report) ∧ p.allowlistActive = true ∧
      ¬ ∃ line ∈ fileLines file, HasText line := by
  refine ⟨⟨[], [], true⟩, ⟨0, 0, 0, 1, true, false⟩, by decide +kernel, rfl, ?_⟩
  rintro ⟨line, hline, htext⟩
  have hlf : ch '\n' ∉ List.replicate 1023 (ch '#') := by
    rw [List.mem_replicate]
    decide
  rw [fileLines, Lines.lines_bare hlf, if_neg (by simp)] at hline
  obtain rfl := List.mem_singleton.1 hline
  exact htext rfl

end SecureProxy
