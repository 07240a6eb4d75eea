/-
The fixture file line by line. Two silent cuts stand between the file and the
rules: `fgets` cuts a line after 1023 bytes and the loop takes every piece for a
line; `%254s` cuts a word after 254 bytes and the rest of it is the next field.
A file is read as it is written exactly where neither of them matters.
-/
import SecureProxy.Fixture
import SecureProxy.PolicyFacts
import SecureProxy.PolicyFile

namespace SecureProxy

open Bytes

/-- The words of a line before its comment. -/
def lineWords (line : List Byte) : List (List Byte) := Scan.words isSpace (beforeComment line)

/-- What a line is to be taken for: nothing, a rule where it is a valid host and
a verdict, malformed otherwise. -/
def fixtureSays (line : List Byte) : FixtureLine := fixtureFields (lineWords line)

/-- The pieces `fgets` makes of a line. -/
def linePieces (line : List Byte) : List (List Byte) :=
  (List.range (line.length / 1023 + 1)).map fun k => (line.drop (1023 * k)).take 1023

/-- Texts with what they were taken for, but for those that were ignored. -/
def heeded (turns : List (List Byte × FixtureLine)) : List (List Byte × FixtureLine) := turns.filter (·.2 != .ignored)

/-- The turns of the loop, each with the text it has read without the LF. -/
def fixtureTurns (file : List Byte) : List (List Byte × FixtureLine) :=
  heeded ((fixtureReads file.length file).map fun line => (line.takeWhile (· != ch '\n'), fixtureLine line))

/-- The turns there are to be: one for every line. -/
def writtenTurns (file : List Byte) : List (List Byte × FixtureLine) :=
  heeded ((fileLines file).map fun line => (line, fixtureSays line))

/-- The word is a host of 254 bytes and a verdict with nothing between them. -/
def Glued (line : List Byte) : Prop :=
  ∃ host verdict, lineWords line = [host ++ verdict] ∧ host.length = 254 ∧ (fixtureHost host).isSome = true ∧
    (fixtureVerdictFromText verdict).isSome = true

/-- The host has 255 bytes, a dot in front and one at the end. -/
def LongHost (line : List Byte) : Prop :=
  ∃ host verdict, lineWords line = [host, verdict] ∧ host.length = 255 ∧ (fixtureHost host).isSome = true ∧
    (fixtureVerdictFromText verdict).isSome = true

/-- The line is read as it is written: whole and as two words, or every piece of
it is blank. -/
def ReadAsWritten (line : List Byte) : Prop :=
  (line.length ≤ 1023 ∧ ¬ Glued line ∧ ¬ LongHost line) ∨ ∀ piece ∈ linePieces line, lineWords piece = []

/-! ## Words and fields -/

theorem fixtureLine_words (line : List Byte) :
    fixtureLine line = fixtureFields (Scan.fieldsOfWords [254, 31, 7] (lineWords line)) := by
  rw [fixtureLine, Scan.fields_eq]
  rfl

/-- The LF of a line is a blank at its end, or in its comment. -/
theorem lineWords_lf (line : List Byte) : lineWords (line ++ [ch '\n']) = lineWords line := by
  have hlf : isSpace (ch '\n') = true := by decide
  unfold lineWords beforeComment
  rw [List.takeWhile_append]
  split
  · rename_i hall
    rw [List.takeWhile_prefix _ |>.eq_of_length hall, List.takeWhile_cons, if_pos (by decide), List.takeWhile_nil,
      Scan.words_concat_blank _ hlf]
  · rfl

/-- A verdict word is short, and there is something of it. -/
theorem fixtureVerdictFromText_length {t : List Byte} (h : (fixtureVerdictFromText t).isSome = true) :
    0 < t.length ∧ t.length ≤ 11 := by
  have hwords : ∀ x ∈ [(bytes "safe", FixtureVerdict.safe), (bytes "suspicious", .suspicious), (bytes "malicious", .malicious),
      (bytes "unavailable", .unavailable), (bytes "timeout", .timeout)], 0 < x.1.length ∧ x.1.length ≤ 11 := by decide
  rw [fixtureVerdictFromText, Option.isSome_map, List.find?_isSome] at h
  obtain ⟨x, hx, heq⟩ := h
  rw [← eq_of_beq heq]
  exact hwords x hx

/-- A valid host is at most 255 bytes long. -/
theorem fixtureHost_length {host : List Byte} (h : (fixtureHost host).isSome = true) : host.length ≤ 255 := by
  have hname : ∀ name : List Byte, (normaliseHost name).isSome = true → name.length ≤ 254 := by
    intro name hn
    obtain ⟨s, hs⟩ := Option.isSome_iff_exists.1 hn
    have hshort := (normaliseHost_iff.1 hs).short
    unfold undotted repHostMax at hshort
    split at hshort
    · rw [List.length_dropLast] at hshort
      omega
    · omega
  rw [fixtureHost, Option.isSome_map] at h
  have hlen := hname _ h
  split at hlen
  · rw [List.length_tail] at hlen
    omega
  · omega

theorem fixtureFields_two {host verdict : List Byte} :
    fixtureFields [host, verdict] = .malformed ↔
      ¬ ((fixtureHost host).isSome = true ∧ (fixtureVerdictFromText verdict).isSome = true) := by
  cases hh : fixtureHost host <;> cases hv : fixtureVerdictFromText verdict <;> simp [fixtureFields, hh, hv]

theorem fixtureFields_three {fs : List (List Byte)} (h : 2 < fs.length) : fixtureFields fs = .malformed := by
  match fs with
  | a :: b :: c :: fs => rfl

theorem glued_word {t : List Byte} :
    (∃ host verdict, [t] = [host ++ verdict] ∧ host.length = 254 ∧ (fixtureHost host).isSome = true ∧
      (fixtureVerdictFromText verdict).isSome = true) ↔
    (fixtureHost (t.take 254)).isSome = true ∧ (fixtureVerdictFromText (t.drop 254)).isSome = true := by
  constructor
  · rintro ⟨host, verdict, heq, hlen, hhost, hverdict⟩
    obtain rfl := List.singleton_inj.1 heq
    rw [← hlen, List.take_left, List.drop_left]
    exact ⟨hhost, hverdict⟩
  · rintro ⟨hhost, hverdict⟩
    have hpos := (fixtureVerdictFromText_length hverdict).1
    rw [List.length_drop] at hpos
    exact ⟨t.take 254, t.drop 254, by rw [List.take_append_drop], by rw [List.length_take]; omega, hhost, hverdict⟩

theorem longHost_words {t u : List Byte} :
    (∃ host verdict, [t, u] = [host, verdict] ∧ host.length = 255 ∧ (fixtureHost host).isSome = true ∧
      (fixtureVerdictFromText verdict).isSome = true) ↔
    t.length = 255 ∧ (fixtureHost t).isSome = true ∧ (fixtureVerdictFromText u).isSome = true := by
  constructor
  · rintro ⟨host, verdict, heq, h⟩
    obtain ⟨rfl, rfl⟩ : t = host ∧ u = verdict := by simpa using heq
    exact h
  · exact fun h => ⟨t, u, rfl, h⟩

/-- A line that is read whole is taken for what it says, but for the two kinds
of words that do not fit their field. -/
theorem fixtureLine_eq_says_iff (line : List Byte) :
    fixtureLine line = fixtureSays line ↔ ¬ Glued line ∧ ¬ LongHost line := by
  rw [fixtureLine_words, fixtureSays]
  unfold Glued LongHost
  generalize lineWords line = ws
  match ws with
  | [] => simp
  | [t] =>
    rw [glued_word]
    by_cases hlen : t.length ≤ 254
    · have hverdict : (fixtureVerdictFromText (t.drop 254)).isSome = false := by rw [List.drop_of_length_le hlen]; rfl
      rw [Scan.fieldsOfWords_le hlen]
      simp [hverdict]
    · rw [Scan.fieldsOfWords_gt hlen]
      by_cases hrest : (t.drop 254).length ≤ 31
      · rw [Scan.fieldsOfWords_le hrest, Scan.fieldsOfWords_nil, show fixtureFields [t] = .malformed from rfl, fixtureFields_two]
        simp
      · have hverdict : ¬ (fixtureVerdictFromText (t.drop 254)).isSome = true := fun h => by
          have := (fixtureVerdictFromText_length h).2
          omega
        rw [Scan.fieldsOfWords_gt hrest, fixtureFields_three (by simp [Scan.fieldsOfWords])]
        simp [hverdict, fixtureFields]
  | [t, u] =>
    rw [longHost_words, and_iff_right (by simp)]
    by_cases hlen : t.length ≤ 254
    · rw [Scan.fieldsOfWords_le hlen]
      by_cases hrest : u.length ≤ 31
      · rw [Scan.fieldsOfWords_le hrest, Scan.fieldsOfWords_nil]
        exact iff_of_true rfl fun h => absurd h.1 (by omega)
      · have hverdict : ¬ (fixtureVerdictFromText u).isSome = true := fun h => by
          have := (fixtureVerdictFromText_length h).2
          omega
        rw [Scan.fieldsOfWords_gt hrest, fixtureFields_three (by simp [Scan.fieldsOfWords]), eq_comm, fixtureFields_two]
        simp [hverdict]
    · rw [Scan.fieldsOfWords_gt hlen, fixtureFields_three (by simp [Scan.length_fieldsOfWords]), eq_comm, fixtureFields_two]
      refine not_congr ⟨fun h => ⟨?_, h⟩, fun h => h.2⟩
      have := fixtureHost_length h.1
      omega
  | t :: u :: v :: ws =>
    rw [fixtureFields_three (by rw [Scan.length_fieldsOfWords (by simp)]; decide), fixtureFields_three (by simp)]
    simp

/-! ## Pieces of a line -/

theorem linePieces_short {line : List Byte} (h : line.length < 1023) : linePieces line = [line] := by
  rw [linePieces, Nat.div_eq_of_lt h]
  simp [List.take_of_length_le (Nat.le_of_lt h)]

theorem linePieces_long {line : List Byte} (h : 1023 ≤ line.length) :
    linePieces line = line.take 1023 :: linePieces (line.drop 1023) := by
  have hdiv : line.length / 1023 = (line.drop 1023).length / 1023 + 1 := by
    rw [List.length_drop]
    omega
  rw [linePieces, hdiv, List.range_succ_eq_map, List.map_cons, List.map_map, linePieces]
  simp only [Nat.mul_zero, List.drop_zero, List.drop_drop, Function.comp_def, Nat.mul_succ, Nat.add_comm]

theorem length_of_mem_linePieces {line piece : List Byte} (h : piece ∈ linePieces line) : piece.length ≤ 1023 := by
  obtain ⟨k, -, rfl⟩ := List.mem_map.1 h
  exact List.length_take_le ..

theorem lineWords_eq_nil_iff {line : List Byte} : lineWords line = [] ↔ ∀ b ∈ beforeComment line, isSpace b = true :=
  Scan.words_eq_nil_iff

/-- A line of blank pieces is blank. -/
theorem lineWords_of_pieces {line : List Byte} (h : ∀ piece ∈ linePieces line, lineWords piece = []) : lineWords line = [] := by
  induction hn : line.length using Nat.strongRecOn generalizing line with
  | ind n ih =>
    by_cases hlen : line.length < 1023
    · exact h line (by simp [linePieces_short hlen])
    · rw [linePieces_long (by omega)] at h
      have hfirst := lineWords_eq_nil_iff.1 (h _ List.mem_cons_self)
      have hrest := lineWords_eq_nil_iff.1 (ih _ (by rw [← hn, List.length_drop]; omega)
        (fun piece hp => h piece (List.mem_cons_of_mem _ hp)) rfl)
      rw [lineWords_eq_nil_iff]
      intro b hb
      rw [← List.take_append_drop 1023 line, beforeComment, List.takeWhile_append] at hb
      split at hb
      · rename_i hall
        rcases List.mem_append.1 hb with hb | hb
        · rw [← List.takeWhile_prefix (· != ch '#') |>.eq_of_length hall] at hb
          exact hfirst b hb
        · exact hrest b hb
      · exact hfirst b hb

/-! ## The turns of the loop -/

/-- The turns a line takes, and the one it is to take. -/
def lineTurns (line : List Byte) : List (List Byte × FixtureLine) :=
  heeded ((linePieces line).map fun piece => (piece, fixtureLine piece))

def lineWritten (line : List Byte) : List (List Byte × FixtureLine) := heeded [(line, fixtureSays line)]

theorem heeded_cons (turn : List Byte × FixtureLine) (turns : List (List Byte × FixtureLine)) :
    heeded (turn :: turns) = heeded [turn] ++ heeded turns := by
  unfold heeded
  rw [← List.filter_append]
  rfl

theorem lineTurns_short {line : List Byte} (h : line.length < 1023) : lineTurns line = heeded [(line, fixtureLine line)] := by
  rw [lineTurns, linePieces_short h]
  rfl

theorem lineTurns_long {line : List Byte} (h : 1023 ≤ line.length) :
    lineTurns line = heeded [(line.take 1023, fixtureLine (line.take 1023))] ++ lineTurns (line.drop 1023) := by
  rw [lineTurns, linePieces_long h, List.map_cons, heeded_cons]
  rfl

theorem writtenTurns_eq (file : List Byte) : writtenTurns file = (fileLines file).flatMap lineWritten := by
  unfold writtenTurns
  induction fileLines file with
  | nil => rfl
  | cons line lines ih => rw [List.map_cons, heeded_cons, ih, List.flatMap_cons, lineWritten]

theorem fixtureLine_lf (line : List Byte) : fixtureLine (line ++ [ch '\n']) = fixtureLine line := by
  rw [fixtureLine_words, lineWords_lf, ← fixtureLine_words]

/-- One call of `fgets`. -/
theorem fixtureReads_succ {fuel : Nat} {file raw rest : List Byte} (hne : file ≠ [])
    (hget : fgetsLine (fixtureLineMax - 1) file = (raw, rest)) (hnul : 0 ∉ raw) :
    fixtureReads (fuel + 1) file = raw :: fixtureReads fuel rest := by
  obtain ⟨c, file, rfl⟩ := List.exists_cons_of_ne_nil hne
  rw [fixtureReads, hget]
  dsimp only
  rw [Lines.takeWhile_bare hnul]

theorem lineTurns_nil : lineTurns [] = [] := by decide +kernel

theorem flatMap_lineTurns_bare {l : List Byte} (hl : ch '\n' ∉ l) : (fileLines l).flatMap lineTurns = lineTurns l := by
  rw [fileLines, Lines.lines_bare hl]
  split
  · rename_i hnil
    rw [hnil, lineTurns_nil]
    rfl
  · simp

/-- A line that does not fit is cut. -/
theorem fixtureReads_cut {fuel : Nat} {l s : List Byte} (hl : ch '\n' ∉ l) (hnul : 0 ∉ l) (hlen : 1023 ≤ l.length) :
    heeded ((fixtureReads (fuel + 1) (l ++ s)).map fun line => (line.takeWhile (· != ch '\n'), fixtureLine line)) =
      heeded [(l.take 1023, fixtureLine (l.take 1023))] ++
        heeded ((fixtureReads fuel (l.drop 1023 ++ s)).map fun line => (line.takeWhile (· != ch '\n'), fixtureLine line)) := by
  have hne : l ++ s ≠ [] := List.append_ne_nil_of_left_ne_nil (List.ne_nil_of_length_pos (by omega)) s
  have hget : fgetsLine (fixtureLineMax - 1) (l ++ s) = (l.take 1023, l.drop 1023 ++ s) := fgetsLine_cut hl hlen s
  rw [fixtureReads_succ hne hget fun h => hnul (List.mem_of_mem_take h), List.map_cons, heeded_cons,
    Lines.takeWhile_bare fun h => hl (List.mem_of_mem_take h)]

theorem fixtureReads_turns {fuel : Nat} {file : List Byte} (hfuel : file.length ≤ fuel) (hnul : 0 ∉ file) :
    heeded ((fixtureReads fuel file).map fun line => (line.takeWhile (· != ch '\n'), fixtureLine line)) =
      (fileLines file).flatMap lineTurns := by
  induction fuel generalizing file with
  | zero =>
    obtain rfl := List.length_eq_zero_iff.1 (Nat.le_zero.1 hfuel)
    rfl
  | succ fuel ih =>
    by_cases hlf : ch '\n' ∈ file
    · obtain ⟨l, s, rfl, hl⟩ := List.eq_append_cons_of_mem hlf
      have hnul_l : 0 ∉ l := fun h => hnul (List.mem_append_left _ h)
      rw [List.length_append, List.length_cons] at hfuel
      rw [fileLines, Lines.lines_line hl, List.flatMap_cons]
      by_cases hlen : l.length < 1023
      · have hraw : 0 ∉ l ++ [ch '\n'] := by simpa [hnul_l] using (by decide : (0 : Byte) ≠ ch '\n')
        rw [fixtureReads_succ (by simp) (fgetsLine_line hl hlen s) hraw, List.map_cons, heeded_cons,
          ih (by omega) fun h => hnul (List.mem_append_right _ (List.mem_cons_of_mem _ h)), Lines.takeWhile_line hl, fixtureLine_lf,
          lineTurns_short hlen]
        simp [fileLines]
      · have hrest : 0 ∉ l.drop 1023 ++ ch '\n' :: s := fun h => hnul <| by
          rw [← List.take_append_drop 1023 l, List.append_assoc]
          exact List.mem_append_right _ h
        rw [fixtureReads_cut hl hnul_l (Nat.not_lt.1 hlen), ih (by simp; omega) hrest, fileLines,
          Lines.lines_line fun h => hl (List.mem_of_mem_drop h), List.flatMap_cons, ← List.append_assoc,
          ← lineTurns_long (Nat.not_lt.1 hlen)]
    · rw [flatMap_lineTurns_bare hlf]
      by_cases hlen : file.length < 1023
      · by_cases hnil : file = []
        · subst hnil
          rw [lineTurns_nil]
          rfl
        · rw [fixtureReads_succ hnil (fgetsLine_end hlf (Nat.le_of_lt hlen)) hnul, List.map_cons, heeded_cons,
            Lines.takeWhile_bare hlf, lineTurns_short hlen]
          cases fuel <;> simp [fixtureReads, heeded]
      · have hcut := @fixtureReads_cut fuel file [] hlf hnul (Nat.not_lt.1 hlen)
        rw [List.append_nil, List.append_nil] at hcut
        rw [hcut, ih (by rw [List.length_drop]; omega) fun h => hnul (List.mem_of_mem_drop h),
          flatMap_lineTurns_bare fun h => hlf (List.mem_of_mem_drop h), ← lineTurns_long (Nat.not_lt.1 hlen)]

theorem fixtureTurns_eq {file : List Byte} (hnul : 0 ∉ file) : fixtureTurns file = (fileLines file).flatMap lineTurns :=
  fixtureReads_turns le_rfl hnul

/-! ## Line by line -/

theorem fixtureFields_eq_ignored {ws : List (List Byte)} : fixtureFields ws = .ignored ↔ ws = [] := by
  match ws with
  | [] => simp [fixtureFields]
  | [a] => simp [fixtureFields]
  | [a, b] =>
    rw [fixtureFields]
    split <;> simp
  | a :: b :: c :: ws => simp [fixtureFields]

theorem fixtureSays_eq_ignored {line : List Byte} : fixtureSays line = .ignored ↔ lineWords line = [] :=
  fixtureFields_eq_ignored

theorem fixtureLine_eq_ignored {line : List Byte} : fixtureLine line = .ignored ↔ lineWords line = [] := by
  rw [fixtureLine_words, fixtureFields_eq_ignored]
  cases lineWords line <;> simp [Scan.fieldsOfWords]

theorem mem_heeded {turn : List Byte × FixtureLine} {turns : List (List Byte × FixtureLine)} :
    turn ∈ heeded turns ↔ turn ∈ turns ∧ turn.2 ≠ .ignored := by
  simp [heeded]

theorem lineTurns_eq_nil_iff {line : List Byte} : lineTurns line = [] ↔ ∀ piece ∈ linePieces line, lineWords piece = [] := by
  rw [lineTurns, heeded, List.filter_eq_nil_iff]
  simp only [List.mem_map, forall_exists_index, and_imp, forall_apply_eq_imp_iff₂, bne_iff_ne, not_not, ne_eq, fixtureLine_eq_ignored]

theorem lineWritten_eq_nil_iff {line : List Byte} : lineWritten line = [] ↔ lineWords line = [] := by
  rw [lineWritten, heeded, List.filter_eq_nil_iff]
  simp only [List.mem_singleton, forall_eq, bne_iff_ne, not_not, ne_eq, fixtureSays_eq_ignored]

/-- A line that says something takes a turn. -/
theorem lineWritten_length_le (line : List Byte) : (lineWritten line).length ≤ (lineTurns line).length := by
  by_cases hnil : lineTurns line = []
  · rw [lineWritten_eq_nil_iff.2 (lineWords_of_pieces (lineTurns_eq_nil_iff.1 hnil))]
    exact Nat.zero_le _
  · exact (List.length_filter_le ..).trans (List.length_pos_iff.2 hnil)

theorem heeded_singleton_inj {text : List Byte} {o o' : FixtureLine} : heeded [(text, o)] = heeded [(text, o')] ↔ o = o' := by
  cases o <;> cases o' <;> simp [heeded]

/-- A line takes the turn it is to take exactly where it is read as written. -/
theorem lineTurns_eq_written_iff (line : List Byte) : lineTurns line = lineWritten line ↔ ReadAsWritten line := by
  unfold ReadAsWritten
  by_cases hlen : line.length ≤ 1023
  · have hturns : lineTurns line = heeded [(line, fixtureLine line)] := by
      rcases Nat.lt_or_eq_of_le hlen with hlt | heq
      · exact lineTurns_short hlt
      · rw [lineTurns_long heq.ge, ← heq, List.take_length, List.drop_length, lineTurns_nil, List.append_nil]
    rw [hturns, lineWritten, heeded_singleton_inj, fixtureLine_eq_says_iff, and_iff_right hlen]
    refine ⟨.inl, fun h => h.elim id fun hblank => ?_⟩
    have hnil := lineWords_of_pieces hblank
    refine ⟨?_, ?_⟩
    · rintro ⟨host, verdict, hwords, -⟩
      exact absurd (hnil.symm.trans hwords) (by simp)
    · rintro ⟨host, verdict, hwords, -⟩
      exact absurd (hnil.symm.trans hwords) (by simp)
  · rw [or_iff_right fun h => hlen h.1, ← lineTurns_eq_nil_iff]
    refine ⟨fun heq => ?_, fun hnil => ?_⟩
    · -- no turn has read the whole line
      rw [heq, List.eq_nil_iff_forall_not_mem]
      intro turn hturn
      obtain ⟨hmem, hheed⟩ := mem_heeded.1 hturn
      obtain rfl := List.mem_singleton.1 hmem
      rw [← heq] at hturn
      obtain ⟨piece, hpiece, hsame⟩ := List.mem_map.1 (mem_heeded.1 hturn).1
      have hle := length_of_mem_linePieces hpiece
      rw [(Prod.mk.inj hsame).1] at hle
      exact hlen hle
    · rw [hnil, lineWritten_eq_nil_iff.2 (lineWords_of_pieces (lineTurns_eq_nil_iff.1 hnil))]

theorem length_flatMap_le {α β : Type} {f g : α → List β} {l : List α} (h : ∀ x ∈ l, (g x).length ≤ (f x).length) :
    (l.flatMap g).length ≤ (l.flatMap f).length := by
  induction l with
  | nil => simp
  | cons x l ih =>
    have hx := h x List.mem_cons_self
    have hl := ih fun y hy => h y (List.mem_cons_of_mem _ hy)
    simp only [List.flatMap_cons, List.length_append]
    omega

/-- Where no part can make up for another, equal wholes have equal parts. -/
theorem flatMap_eq_iff {α β : Type} {f g : α → List β} {l : List α} (h : ∀ x ∈ l, (g x).length ≤ (f x).length) :
    l.flatMap f = l.flatMap g ↔ ∀ x ∈ l, f x = g x := by
  induction l with
  | nil => simp
  | cons x l ih =>
    have hl : ∀ y ∈ l, (g y).length ≤ (f y).length := fun y hy => h y (List.mem_cons_of_mem _ hy)
    rw [List.flatMap_cons, List.flatMap_cons, List.forall_mem_cons, ← ih hl]
    refine ⟨fun heq => List.append_inj heq ?_, fun heq => by rw [heq.1, heq.2]⟩
    have hlen := congrArg List.length heq
    have hx := h x List.mem_cons_self
    have hrest := length_flatMap_le hl
    simp only [List.length_append] at hlen
    omega

/-! ## Rules and lookups -/

def FixtureLine.rule? : FixtureLine → Option FixtureRule
  | .rule r => some r
  | _ => none

/-- The rules of the lines that are one, in order. -/
def writtenRules (file : List Byte) : List FixtureRule := (fileLines file).filterMap fun line => (fixtureSays line).rule?

theorem fixtureLoop_eq (lines : List (List Byte)) (d : FixtureData) :
    fixtureLoop (fun _ => true) lines d = some
      { rules := d.rules ++ lines.filterMap fun line => (fixtureLine line).rule?
        malformed := d.malformed + lines.countP (fixtureLine · == .malformed) } := by
  induction lines generalizing d with
  | nil => simp [fixtureLoop]
  | cons line lines ih =>
    rw [fixtureLoop]
    cases hline : fixtureLine line with
    | ignored =>
      have hne : (FixtureLine.ignored == FixtureLine.malformed) = false := rfl
      simp [ih, hline, FixtureLine.rule?, hne]
    | malformed =>
      simp [ih, hline, FixtureLine.rule?]
      omega
    | rule r =>
      have hne : (FixtureLine.rule r == FixtureLine.malformed) = false := rfl
      simp [ih, hline, FixtureLine.rule?, hne]

/-- What is stored and counted is what the turns say. -/
theorem heeded_data (turns : List (List Byte × FixtureLine)) :
    (heeded turns).filterMap (·.2.rule?) = turns.filterMap (·.2.rule?) ∧
      (heeded turns).countP (·.2 == .malformed) = turns.countP (·.2 == .malformed) := by
  induction turns with
  | nil => exact ⟨rfl, rfl⟩
  | cons turn turns ih =>
    obtain ⟨text, o⟩ := turn
    have htail : ∀ turns, (heeded ((text, o) :: turns)) = if o = .ignored then heeded turns else (text, o) :: heeded turns := by
      intro turns
      by_cases ho : o = .ignored <;> simp [heeded, ho]
    rw [htail]
    cases o with
    | ignored => exact ⟨ih.1, ih.2⟩
    | malformed => simpa [FixtureLine.rule?] using ih
    | rule r => simpa [FixtureLine.rule?] using ih

/-- The verdict of the first rule that covers a host, or safe. -/
def FirstVerdict (rules : List FixtureRule) (host : List Byte) (v : ReputationVerdict) : Prop :=
  (∃ before r after, rules = before ++ r :: after ∧ Covers r.toPolicyRule host ∧
    (∀ r' ∈ before, ¬ Covers r'.toPolicyRule host) ∧ v = r.verdict.answer) ∨
  ((∀ r ∈ rules, ¬ Covers r.toPolicyRule host) ∧ v = .safe)

theorem fixtureLookup_first (rules : List FixtureRule) (host : List Byte) :
    FirstVerdict rules host (fixtureLookup rules host) := by
  unfold fixtureLookup
  cases hfind : rules.find? fun r => ruleMatches r.toPolicyRule host with
  | none =>
    refine .inr ⟨fun r hr hcov => ?_, rfl⟩
    exact List.find?_eq_none.1 hfind r hr (ruleMatches_iff.2 hcov)
  | some r =>
    obtain ⟨hr, before, after, rfl, hbefore⟩ := List.find?_eq_some_iff_append.1 hfind
    refine .inl ⟨before, r, after, rfl, ruleMatches_iff.1 hr, fun r' hr' hcov => ?_, rfl⟩
    simpa [ruleMatches_iff.2 hcov] using hbefore r' hr'

/-- **A fixture file is read line by line, and looked up in its order, exactly
where every line is read as written**: it has at most 1023 bytes, is not a host
of 254 bytes with a verdict right behind it, and not a verdict for a host of 255
bytes; or every piece of it is blank. -/
theorem reputationFixtureLoad_lines (file : List Byte) (hnul : 0 ∉ file) :
    (fixtureTurns file = writtenTurns file ∧
      ∃ d, reputationFixtureLoad (some file) true (fun _ => true) = some d ∧ d.rules = writtenRules file ∧
        d.malformed = (fileLines file).countP (fixtureSays · == .malformed) ∧
        ∀ host, FirstVerdict (writtenRules file) host (fixtureLookup d.rules host)) ↔
    ∀ line ∈ fileLines file, ReadAsWritten line := by
  have hlines : fixtureTurns file = writtenTurns file ↔ ∀ line ∈ fileLines file, ReadAsWritten line := by
    rw [fixtureTurns_eq hnul, writtenTurns_eq, flatMap_eq_iff fun line _ => lineWritten_length_le line]
    simp only [lineTurns_eq_written_iff]
  rw [← hlines]
  refine and_iff_left_of_imp fun hturns => ⟨_, fixtureLoop_eq _ _, ?_⟩
  have hread := heeded_data ((fixtureReads file.length file).map fun line => (line.takeWhile (· != ch '\n'), fixtureLine line))
  have hwritten := heeded_data ((fileLines file).map fun line => (line, fixtureSays line))
  rw [show heeded _ = writtenTurns file from hturns, List.filterMap_map, List.countP_map] at hread
  rw [show heeded _ = writtenTurns file from rfl, List.filterMap_map, List.countP_map] at hwritten
  have hrules : (fixtureReads file.length file).filterMap (fun line => (fixtureLine line).rule?) = writtenRules file :=
    hread.1.symm.trans hwritten.1
  refine ⟨?_, ?_, fun host => ?_⟩
  · rw [List.nil_append, hrules]
  · rw [Nat.zero_add]
    exact hread.2.symm.trans hwritten.2
  · dsimp only
    rw [List.nil_append, hrules]
    exact fixtureLookup_first _ host

theorem reputationFixtureLoad_lines_order :
    ∃ d, reputationFixtureLoad (some (bytes "x.test safe # first\n.test malicious\n")) true (fun _ => true) = some d ∧
      fixtureLookup d.rules (bytes "x.test") = .safe ∧ fixtureLookup d.rules (bytes "y.test") = .malicious := by
  have hshort : ∀ line ∈ fileLines (bytes "x.test safe # first\n.test malicious\n"),
      line.length ≤ 1023 ∧ ∀ w ∈ lineWords line, w.length < 254 := by decide +kernel
  have hread : ∀ line ∈ fileLines (bytes "x.test safe # first\n.test malicious\n"), ReadAsWritten line := by
    intro line hline
    obtain ⟨hlen, hwords⟩ := hshort line hline
    refine .inl ⟨hlen, ?_, ?_⟩
    · rintro ⟨host, verdict, heq, hhost, -⟩
      have := hwords (host ++ verdict) (by simp [heq])
      rw [List.length_append] at this
      omega
    · rintro ⟨host, verdict, heq, hhost, -⟩
      have := hwords host (by simp [heq])
      omega
  obtain ⟨-, d, hload, hrules, -⟩ := (reputationFixtureLoad_lines _ (by decide +kernel)).2 hread
  refine ⟨d, hload, ?_⟩
  rw [hrules]
  decide +kernel

/-- The end of a long comment becomes a rule. -/
theorem reputationFixtureLoad_long_comment :
    let file := List.replicate 1023 (ch '#') ++ bytes "evil.test malicious\n"
    (∀ line ∈ fileLines file, fixtureSays line = .ignored) ∧
      reputationFixtureLoad (some file) true (fun _ => true) = some ⟨[⟨⟨bytes "evil.test", false⟩, .malicious⟩], 0⟩ ∧
      fixtureTurns file ≠ writtenTurns file := by
  decide +kernel

end SecureProxy
