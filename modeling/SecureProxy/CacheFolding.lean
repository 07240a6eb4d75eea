/-
Header fields that are written over several lines, or with blanks before the
colon. HTTP has a proxy read such a field as the one line it stands for; the
scanner of `cache_evaluate_response` knows a field by the beginning of a line
alone, and reads a folded or spaced one as another header.
-/
import SecureProxy.CacheRules

namespace SecureProxy

open Bytes Lines

/-! ## The normal form of a header -/

/-- A line that goes on with the field before it. -/
def isFold (line : List Byte) : Bool := line.head?.any isBlank

/-- A field: its first line and the lines that go on with it. -/
structure RawField where
  first : List Byte
  folds : List (List Byte)
  deriving DecidableEq, Repr

/-- The fields of some lines; `first` and `folds` are what has been read of
the current one. -/
def fieldsFrom (first : List Byte) (folds : List (List Byte)) : List (List Byte) → List RawField
  | [] => [⟨first, folds⟩]
  | line :: lines =>
    if isFold line then fieldsFrom first (folds ++ [line]) lines else ⟨first, folds⟩ :: fieldsFrom line [] lines

def rawFields : List (List Byte) → List RawField
  | [] => []
  | line :: lines => fieldsFrom line [] lines

/-- A fold is one space. -/
def joinFold (line fold : List Byte) : List Byte := dropCr line ++ ch ' ' :: fold.dropWhile isBlank

/-- Without the blanks between the name and its colon. -/
def tightenName (line : List Byte) : List Byte :=
  if ch ':' ∈ line then (line.takeWhile (· ≠ ch ':')).rdropWhile isBlank ++ line.dropWhile (· ≠ ch ':') else line

/-- The one line a field stands for. -/
def RawField.normal (f : RawField) : List Byte := tightenName (f.folds.foldl joinFold f.first)

/-- The header with every field on one line. A fold without a field before it
stays where it is. -/
def normaliseHeader : List (List Byte) → List (List Byte)
  | [] => []
  | status :: lines => status :: (lines.takeWhile isFold ++ (rawFields (lines.dropWhile isFold)).map RawField.normal)

/-- The response with its header block in normal form. -/
def normaliseResponse (r : List Byte) : List Byte :=
  match block (ch '\n') isEmptyLine r [] with
  | none => r
  | some (raw, body) => render (ch '\n') (normaliseHeader raw) ++ body

/-- The names the scanner looks for. -/
def watchedNames : List String :=
  ["set-cookie:", "authorization:", "www-authenticate:", "pragma:", "vary:", "cache-control:", "content-length:"]

def Watched (line : List Byte) : Prop := ∃ name ∈ watchedNames, named name line

instance (line : List Byte) : Decidable (Watched line) :=
  inferInstanceAs (Decidable (∃ name ∈ watchedNames, named name line))

/-- On one line, without blanks before its colon. -/
def RawField.Plain (f : RawField) : Prop := f.folds = [] ∧ tightenName f.first = f.first

instance (f : RawField) : Decidable f.Plain := inferInstanceAs (Decidable (_ ∧ _))

/-- No field the scanner looks for is folded or spaced. -/
def PlainFields (raw : List (List Byte)) : Prop :=
  ∀ f ∈ rawFields (raw.tail.dropWhile isFold), Watched f.normal → f.Plain

instance (raw : List (List Byte)) : Decidable (PlainFields raw) :=
  inferInstanceAs (Decidable (∀ f ∈ rawFields (raw.tail.dropWhile isFold), Watched f.normal → f.Plain))

/-! ## What the scanner passes by -/

/-- A line with none of the names adds nothing. -/
theorem scanHeaderLine_unwatched {line : List Byte} (h : ¬ Watched line) (hs : HeaderScan) :
    scanHeaderLine hs (dropCr line) = .ok hs := by
  have hnot : ∀ name ∈ watchedNames, ¬ named name (dropCr line) := by
    intro name hname hn
    exact h ⟨name, hname, List.IsPrefix.trans hn ((prefix_dropCr line).map _)⟩
  simp only [watchedNames, List.forall_mem_cons] at hnot
  obtain ⟨h1, h2, h3, h4, h5, h6, h7, -⟩ := hnot
  refine scanHeaderLine_iff.2 ⟨⟨h1, ⟨h2, h3⟩, fun hc => absurd hc h4, fun hc => absurd hc h5⟩, [], [], ?_, ?_, ?_⟩
  · rw [lineDirectives, if_neg h6]
    exact .nil
  · rw [Lengths, lengthLines, List.filter_cons_of_neg (by simpa using h7)]
    exact .nil
  · rw [decide_eq_false h6, HeaderScan.add_none]

theorem isFold_unwatched {line : List Byte} (h : isFold line = true) : ¬ Watched line := by
  cases line with
  | nil => cases h
  | cons b line =>
    have hb : b = ch ' ' ∨ b = ch '\t' := by simpa [isFold, isBlank] using h
    intro h'
    obtain ⟨name, hname, rest, hrest⟩ := h'
    have key : ∀ name ∈ watchedNames, (bytes name).head? ≠ some (toLower (ch ' ')) ∧
        (bytes name).head? ≠ some (toLower (ch '\t')) ∧ bytes name ≠ [] := by decide
    obtain ⟨hspace, htab, hne⟩ := key name hname
    obtain ⟨a, tail, htail⟩ := List.exists_cons_of_ne_nil hne
    rw [htail, List.map_cons, List.cons_append, List.cons.injEq] at hrest
    rw [htail, List.head?_cons, hrest.1] at hspace htab
    rcases hb with rfl | rfl
    · exact hspace rfl
    · exact htab rfl

theorem toLower_eq_colon {b : Byte} (h : toLower b = ch ':') : b = ch ':' := by
  unfold toLower at h
  split at h
  · rename_i hup
    have hn := congrArg UInt8.toNat h
    simp only [isUpper, Bool.and_eq_true, decide_eq_true_eq, UInt8.le_iff_toNat_le, UInt8.toNat_add, ch] at hup hn
    simp at hup hn
    omega
  · exact h

/-- A watched line is its name, with nothing before the colon to take off, and
anything may follow. -/
theorem Watched.split {line : List Byte} (h : Watched line) : ∃ word rest, line = word ++ ch ':' :: rest ∧
    ch ':' ∉ word ∧ word.rdropWhile isBlank = word ∧ ∀ rest', Watched (word ++ ch ':' :: rest') := by
  obtain ⟨name, hname, t, ht⟩ := h
  have key : ∀ name ∈ watchedNames, bytes name = (bytes name).dropLast ++ [ch ':'] ∧ ch ':' ∉ (bytes name).dropLast ∧
      (bytes name).dropLast.getLast?.all fun b => !isBlank b := by decide
  obtain ⟨hcolon, hfree, hlast⟩ := key name hname
  generalize (bytes name).dropLast = lower at hcolon hfree hlast
  rw [hcolon, List.append_assoc, List.singleton_append] at ht
  obtain ⟨word, tail, rfl, hword, htail⟩ := List.map_eq_append_iff.1 ht.symm
  obtain ⟨c, rest, rfl, hc, -⟩ := List.map_eq_cons_iff.1 htail
  obtain rfl := toLower_eq_colon hc
  refine ⟨word, rest, rfl, fun hmem => ?_, List.rdropWhile_eq_self_iff.2 fun hne hblank => ?_, fun rest' => ?_⟩
  · rw [← hword] at hfree
    exact hfree (List.mem_map_of_mem hmem)
  · have hlower : toLower (word.getLast hne) = word.getLast hne := by
      have : word.getLast hne = ch ' ' ∨ word.getLast hne = ch '\t' := by simpa [isBlank] using hblank
      rcases this with heq | heq <;> rw [heq] <;> rfl
    rw [← hword, List.getLast?_map, List.getLast?_eq_some_getLast hne, Option.map_some, hlower] at hlast
    simp [hblank] at hlast
  · refine ⟨name, hname, rest'.map toLower, ?_⟩
    rw [hcolon, List.map_append, List.map_cons, hword, List.append_assoc, List.singleton_append]
    rfl

theorem Watched.tightenName {line : List Byte} (h : Watched line) : tightenName line = line := by
  obtain ⟨word, rest, rfl, hfree, hlast, -⟩ := h.split
  have hword : ∀ b ∈ word, decide (b ≠ ch ':') = true := by
    intro b hb
    simpa using fun heq : b = ch ':' => hfree (heq ▸ hb)
  unfold SecureProxy.tightenName
  rw [if_pos (by simp), List.takeWhile_append_of_pos hword, List.dropWhile_append_of_pos hword]
  simp [hlast]

theorem dropCr_colon (word rest : List Byte) : dropCr (word ++ ch ':' :: rest) = word ++ ch ':' :: dropCr rest := by
  cases rest with
  | nil =>
    have : ch ':' ≠ ch '\r' := by decide
    simp [dropCr, this]
  | cons b rest =>
    have hlast : (word ++ ch ':' :: b :: rest).getLast? = (b :: rest).getLast? := by
      rw [List.getLast?_append, List.getLast?_cons_cons, List.getLast?_cons]
      rfl
    unfold dropCr
    rw [hlast]
    split
    · rw [List.dropLast_append_cons, List.dropLast_cons_of_ne_nil (by simp)]
    · rfl

theorem Watched.joinFold {line : List Byte} (h : Watched line) (fold : List Byte) : Watched (joinFold line fold) := by
  obtain ⟨word, rest, rfl, -, -, hany⟩ := h.split
  rw [SecureProxy.joinFold, dropCr_colon, List.append_assoc, List.cons_append]
  exact hany _

/-- A field is watched if its first line is. -/
theorem Watched.normal {f : RawField} (h : Watched f.first) : Watched f.normal := by
  have hjoined : Watched (f.folds.foldl SecureProxy.joinFold f.first) := by
    generalize f.first = line at h
    induction f.folds generalizing line with
    | nil => exact h
    | cons fold folds ih => exact ih _ (h.joinFold fold)
  rw [RawField.normal, hjoined.tightenName]
  exact hjoined

/-! ## The walk over the fields -/

/-- The lines of a field as they stand. -/
def RawField.lines (f : RawField) : List (List Byte) := f.first :: f.folds

/-- The folds of a field are folds. -/
def RawField.Folded (f : RawField) : Prop := ∀ fold ∈ f.folds, isFold fold = true

theorem scan_folds {folds : List (List Byte)} (h : ∀ fold ∈ folds, isFold fold = true) (hs : HeaderScan) :
    (folds.map dropCr).foldlM scanHeaderLine hs = .ok hs := by
  induction folds with
  | nil => rfl
  | cons fold folds ih =>
    rw [List.map_cons, List.foldlM_cons, scanHeaderLine_unwatched (isFold_unwatched (h fold (by simp)))]
    exact ih fun f hf => h f (by simp [hf])

/-- The lines of a field and the line it stands for are read alike, if it is
not watched or plain. -/
theorem scan_field {f : RawField} (hf : f.Folded) (h : Watched f.normal → f.Plain) (hs : HeaderScan) :
    (f.lines.map dropCr).foldlM scanHeaderLine hs = scanHeaderLine hs (dropCr f.normal) := by
  by_cases hw : Watched f.normal
  · obtain ⟨hfolds, htight⟩ := h hw
    simp [RawField.lines, RawField.normal, hfolds, htight]
  · rw [RawField.lines, List.map_cons, List.foldlM_cons, scanHeaderLine_unwatched hw,
      scanHeaderLine_unwatched fun hc => hw hc.normal]
    exact scan_folds hf hs

theorem scan_fields {fs : List RawField} (hf : ∀ f ∈ fs, f.Folded) (h : ∀ f ∈ fs, Watched f.normal → f.Plain)
    (hs : HeaderScan) : ((fs.flatMap RawField.lines).map dropCr).foldlM scanHeaderLine hs =
      ((fs.map RawField.normal).map dropCr).foldlM scanHeaderLine hs := by
  induction fs generalizing hs with
  | nil => rfl
  | cons f fs ih =>
    rw [List.flatMap_cons, List.map_append, List.foldlM_append, scan_field (hf f (by simp)) (h f (by simp)),
      List.map_cons, List.map_cons, List.foldlM_cons]
    congr 1
    funext hs'
    exact ih (fun g hg => hf g (by simp [hg])) (fun g hg => h g (by simp [hg])) hs'

theorem fieldsFrom_lines (first : List Byte) (folds lines : List (List Byte)) :
    (fieldsFrom first folds lines).flatMap RawField.lines = first :: (folds ++ lines) := by
  induction lines generalizing first folds with
  | nil => simp [fieldsFrom, RawField.lines]
  | cons line lines ih =>
    rw [fieldsFrom]
    split
    · rw [ih]
      simp
    · rw [List.flatMap_cons, ih]
      simp [RawField.lines]

theorem rawFields_lines (lines : List (List Byte)) : (rawFields lines).flatMap RawField.lines = lines := by
  cases lines with
  | nil => rfl
  | cons line lines => simp [rawFields, fieldsFrom_lines]

theorem rawFields_folded {lines : List (List Byte)} : ∀ f ∈ rawFields lines, f.Folded := by
  have key : ∀ lines first folds, (∀ fold ∈ folds, isFold fold = true) →
      ∀ f ∈ fieldsFrom first folds lines, f.Folded := by
    intro lines
    induction lines with
    | nil =>
      intro first folds hfolds f hf
      rw [fieldsFrom, List.mem_singleton] at hf
      rw [hf]
      exact hfolds
    | cons line lines ih =>
      intro first folds hfolds f hf
      rw [fieldsFrom] at hf
      split at hf
      · rename_i hline
        refine ih first _ (fun fold hfold => ?_) f hf
        rcases List.mem_append.1 hfold with hfold | hfold
        · exact hfolds fold hfold
        · rw [List.mem_singleton.1 hfold]
          exact hline
      · rcases List.mem_cons.1 hf with rfl | hf
        · exact hfolds
        · exact ih line [] (by simp) f hf
  intro f hf
  cases lines with
  | nil => cases hf
  | cons line lines => exact key lines line [] (by simp) f hf

/-! ## The header block stays one -/

theorem tightenName_subset (line : List Byte) : ∀ b ∈ tightenName line, b ∈ line := by
  unfold tightenName
  split
  · intro b hb
    rcases List.mem_append.1 hb with hb | hb
    · exact (List.takeWhile_prefix _).subset ((List.rdropWhile_prefix _ _).subset hb)
    · exact (List.dropWhile_suffix _).subset hb
  · exact fun b hb => hb

theorem colon_mem_tightenName {line : List Byte} (h : ch ':' ∈ line) : ch ':' ∈ tightenName line := by
  obtain ⟨word, rest, rfl, hfree⟩ := List.eq_append_cons_of_mem h
  have hword : ∀ b ∈ word, decide (b ≠ ch ':') = true := by
    intro b hb
    simpa using fun heq : b = ch ':' => hfree (heq ▸ hb)
  rw [tightenName, if_pos h, List.dropWhile_append_of_pos hword]
  simp

/-- A line that is not empty does not become so. -/
theorem tightenName_nonempty {line : List Byte} (h : isEmptyLine line = false) : isEmptyLine (tightenName line) = false := by
  by_cases hc : ch ':' ∈ line
  · rw [Bool.eq_false_iff]
    intro hempty
    have hmem := colon_mem_tightenName hc
    rcases isEmptyLine_iff.1 hempty with heq | heq <;> rw [heq] at hmem <;> exact absurd hmem (by decide)
  · rwa [tightenName, if_neg hc]

/-- What a field stands for is a line of the header, and not the empty one. -/
theorem normal_line {f : RawField} (hfirst : ch '\n' ∉ f.first) (hne : isEmptyLine f.first = false)
    (hfolds : ∀ fold ∈ f.folds, ch '\n' ∉ fold) : ch '\n' ∉ f.normal ∧ isEmptyLine f.normal = false := by
  have hjoin : ch '\n' ∉ f.folds.foldl joinFold f.first ∧ isEmptyLine (f.folds.foldl joinFold f.first) = false := by
    generalize f.first = line at hfirst hne
    generalize f.folds = folds at hfolds
    induction folds generalizing line with
    | nil => exact ⟨hfirst, hne⟩
    | cons fold folds ih =>
      refine ih _ (fun hmem => ?_) (Bool.eq_false_iff.2 fun hempty => ?_) fun g hg => hfolds g (by simp [hg])
      · rcases List.mem_append.1 hmem with hmem | hmem
        · exact hfirst ((prefix_dropCr line).subset hmem)
        · rcases List.mem_cons.1 hmem with heq | hmem
          · exact absurd heq (by decide)
          · exact hfolds fold (by simp) ((List.dropWhile_suffix _).subset hmem)
      · have hspace : ch ' ' ∈ joinFold line fold := by simp [joinFold]
        rcases isEmptyLine_iff.1 hempty with heq | heq <;> rw [heq] at hspace <;> exact absurd hspace (by decide)
  exact ⟨fun hmem => hjoin.1 (tightenName_subset _ _ hmem), tightenName_nonempty hjoin.2⟩

theorem isFold_nonempty {line : List Byte} (h : isFold line = true) : isEmptyLine line = false := by
  rw [Bool.eq_false_iff]
  intro hempty
  rcases isEmptyLine_iff.1 hempty with rfl | rfl <;> exact absurd h (by decide)

theorem emptyLine_normal {line : List Byte} (h : isEmptyLine line = true) : RawField.normal ⟨line, []⟩ = line := by
  rcases isEmptyLine_iff.1 h with rfl | rfl <;> rfl

theorem fieldsFrom_block {first : List Byte} {folds lines : List (List Byte)} (hfirst : ch '\n' ∉ first)
    (hne : isEmptyLine first = false) (hfolds : ∀ fold ∈ folds, ch '\n' ∉ fold)
    (h : IsBlock (ch '\n') isEmptyLine lines) :
    IsBlock (ch '\n') isEmptyLine ((fieldsFrom first folds lines).map RawField.normal) := by
  induction h generalizing first folds with
  | @last line hline hempty =>
    have hfold : isFold line = false := by
      rw [Bool.eq_false_iff]
      intro hf
      rw [isFold_nonempty hf] at hempty
      cases hempty
    obtain ⟨hsep, hcloses⟩ := @normal_line ⟨first, folds⟩ hfirst hne hfolds
    simp only [fieldsFrom, hfold, Bool.false_eq_true, if_false, List.map_cons, List.map_nil, emptyLine_normal hempty]
    exact .cons hsep hcloses (.last hline hempty)
  | @cons line lines hline hnonempty _ ih =>
    rw [fieldsFrom]
    split
    · refine ih hfirst hne fun fold hfold => ?_
      rcases List.mem_append.1 hfold with hfold | hfold
      · exact hfolds fold hfold
      · rw [List.mem_singleton.1 hfold]
        exact hline
    · obtain ⟨hsep, hcloses⟩ := @normal_line ⟨first, folds⟩ hfirst hne hfolds
      exact .cons hsep hcloses (ih hline hnonempty (by simp))

theorem rawFields_block {lines : List (List Byte)} (h : IsBlock (ch '\n') isEmptyLine lines) :
    IsBlock (ch '\n') isEmptyLine ((rawFields lines).map RawField.normal) := by
  cases h with
  | last hline hempty =>
    rw [rawFields, fieldsFrom, List.map_singleton, emptyLine_normal hempty]
    exact .last hline hempty
  | cons hline hne hlines => exact fieldsFrom_block hline hne (by simp) hlines

/-- The lines before the first field, and the block that is left. -/
theorem block_fields {lines : List (List Byte)} (h : IsBlock (ch '\n') isEmptyLine lines) :
    (∀ line ∈ lines.takeWhile isFold, ch '\n' ∉ line ∧ isEmptyLine line = false) ∧
      IsBlock (ch '\n') isEmptyLine (lines.dropWhile isFold) := by
  have hfold : ∀ line ∈ lines.takeWhile isFold, isEmptyLine line = false :=
    fun line hline => isFold_nonempty (List.mem_takeWhile_imp hline)
  rw [← List.takeWhile_append_dropWhile (p := isFold) (l := lines)] at h
  obtain ⟨hsep, hrest⟩ := h.of_append hfold
  exact ⟨fun line hline => ⟨hsep line hline, hfold line hline⟩, hrest⟩

theorem normaliseHeader_block {raw : List (List Byte)} (h : IsBlock (ch '\n') isEmptyLine raw) :
    IsBlock (ch '\n') isEmptyLine (normaliseHeader raw) := by
  cases h with
  | last hline hempty => exact .last hline hempty
  | cons hline hne hlines =>
    obtain ⟨hfolds, hrest⟩ := block_fields hlines
    exact .cons hline hne (isBlock_append hfolds (rawFields_block hrest))

/-! ## The status line -/

/-- Thirteen bytes decide. -/
theorem statusIs200_take (r : List Byte) : statusIs200 (r.take 13) = statusIs200 r := by
  have hlen : decide ((r.take 13).length ≥ 12) = decide (r.length ≥ 12) := by
    rw [decide_eq_decide, List.length_take]
    omega
  have hversion : (r.take 13)[8]? = r[8]? := List.getElem?_take_of_lt (by omega)
  have hstop : (r.take 13)[12]? = r[12]? := List.getElem?_take_of_lt (by omega)
  have hcode : ((r.take 13).drop 9).take 3 = (r.drop 9).take 3 := by
    rw [List.drop_take, List.take_take]
    rfl
  simp only [statusIs200, hlen, hversion, hstop, hcode, List.take_take]
  rfl

/-- A status that says 200 is not cut short by a line end, unless a fold
follows. -/
theorem statusIs200_short {p s : List Byte} (hp : p.length ≤ 11) (hs : s.head? ≠ some (ch ' ')) :
    statusIs200 (p ++ ch '\n' :: s) = false := by
  rw [Bool.eq_false_iff]
  intro h
  have hlf : (p ++ ch '\n' :: s)[p.length]? = some (ch '\n') := by simp
  generalize hr : p ++ ch '\n' :: s = r at h hlf
  simp only [statusIs200, Bool.and_eq_true, decide_eq_true_eq, beq_iff_eq] at h
  obtain ⟨⟨⟨⟨-, hhttp⟩, hspace⟩, h200⟩, -⟩ := h
  by_cases h7 : p.length < 7
  · have hmem : ch '\n' ∈ r.take 7 := List.mem_of_getElem? ((List.getElem?_take_of_lt h7).trans hlf)
    rw [hhttp] at hmem
    exact absurd hmem (by decide)
  · by_cases h9 : 9 ≤ p.length
    · have hmem : ch '\n' ∈ (r.drop 9).take 3 := by
        refine List.mem_of_getElem? (i := p.length - 9) ?_
        rw [List.getElem?_take_of_lt (by omega), List.getElem?_drop, Nat.add_sub_cancel' h9]
        exact hlf
      rw [h200] at hmem
      exact absurd hmem (by decide)
    · by_cases h8 : p.length = 8
      · rw [h8, hspace] at hlf
        exact absurd (Option.some.inj hlf) (by decide)
      · have hp7 : p.length = 7 := by omega
        refine hs ?_
        rw [← hspace, ← hr, List.getElem?_append_right (by omega), hp7]
        cases s <;> rfl

/-- Two responses that begin alike up to a line end, after which no fold
follows, have the same status. -/
theorem statusIs200_append {p s s' : List Byte} (hs : s.head? ≠ some (ch ' ')) (hs' : s'.head? ≠ some (ch ' ')) :
    statusIs200 (p ++ ch '\n' :: s) = statusIs200 (p ++ ch '\n' :: s') := by
  by_cases hp : p.length ≤ 11
  · rw [statusIs200_short hp hs, statusIs200_short hp hs']
  · have htake : ∀ t, (p ++ ch '\n' :: t).take 13 = (p ++ [ch '\n']).take 13 := by
      intro t
      rw [List.append_cons, List.take_append_of_le_length]
      simp only [List.length_append, List.length_singleton]
      omega
    rw [← statusIs200_take, htake, ← htake s', statusIs200_take]

/-- What a field stands for begins as the field does. -/
theorem normal_not_fold {f : RawField} (hfold : isFold f.first = false) (hne : isEmptyLine f.first = false) :
    isFold f.normal = false := by
  obtain ⟨b, hb, hblank⟩ : ∃ b, f.first.head? = some b ∧ isBlank b = false := by
    cases hfirst : f.first with
    | nil =>
      rw [hfirst] at hne
      cases hne
    | cons b tail => exact ⟨b, rfl, by simpa [isFold, hfirst] using hfold⟩
  have hjoin : (f.folds.foldl joinFold f.first).head? = some b := by
    generalize f.first = line at hb hne
    induction f.folds generalizing line with
    | nil => exact hb
    | cons fold folds ih =>
      have hspace : ch ' ' ∈ joinFold line fold := by simp [joinFold]
      refine ih _ ?_ (Bool.eq_false_iff.2 fun hempty => ?_)
      · obtain ⟨c, tail, hcons⟩ := List.exists_cons_of_ne_nil fun heq : dropCr line = [] => by
          rw [isEmptyLine, heq] at hne
          cases hne
        obtain ⟨rest, hrest⟩ := prefix_dropCr line
        rw [← hrest, hcons] at hb
        rw [joinFold, hcons]
        exact hb
      · rcases isEmptyLine_iff.1 hempty with heq | heq <;> rw [heq] at hspace <;> exact absurd hspace (by decide)
  have htight : f.normal.head? = some b := by
    rw [RawField.normal]
    generalize f.folds.foldl joinFold f.first = line at hjoin
    obtain ⟨tail, rfl⟩ := List.head?_eq_some_iff.1 hjoin
    unfold tightenName
    split
    · by_cases hcolon : b = ch ':'
      · simp [hcolon]
      · have hne : (b :: tail.takeWhile (· ≠ ch ':')).rdropWhile isBlank ≠ [] := by
          intro hnil
          rw [List.rdropWhile_eq_nil_iff.1 hnil b (by simp)] at hblank
          cases hblank
        obtain ⟨c, rest, hcons⟩ := List.exists_cons_of_ne_nil hne
        have hpre := List.rdropWhile_prefix isBlank (b :: tail.takeWhile (· ≠ ch ':'))
        rw [hcons, List.cons_prefix_cons] at hpre
        rw [List.takeWhile_cons_of_pos (by simpa using hcolon), hcons, hpre.1]
        rfl
    · rfl
  rw [isFold, htight]
  exact hblank

theorem fieldsFrom_first (first : List Byte) (folds lines : List (List Byte)) :
    ∃ folds' fs, fieldsFrom first folds lines = ⟨first, folds'⟩ :: fs := by
  induction lines generalizing folds with
  | nil => exact ⟨folds, [], rfl⟩
  | cons line lines ih =>
    rw [fieldsFrom]
    split
    · exact ih _
    · exact ⟨folds, _, rfl⟩

theorem head_not_space {line : List Byte} (h : isFold line = false) (s : List Byte) :
    (line ++ ch '\n' :: s).head? ≠ some (ch ' ') := by
  cases line with
  | nil => exact fun heq => absurd (Option.some.inj heq) (by decide)
  | cons b line =>
    intro heq
    obtain rfl := Option.some.inj heq
    simp [isFold, isBlank] at h

/-- The fields begin without a blank, and so does what they stand for. -/
theorem fields_head {lines : List (List Byte)} (h : IsBlock (ch '\n') isEmptyLine lines)
    (hfold : ∀ line, lines.head? = some line → isFold line = false) (body : List Byte) :
    (render (ch '\n') lines ++ body).head? ≠ some (ch ' ') ∧
      (render (ch '\n') ((rawFields lines).map RawField.normal) ++ body).head? ≠ some (ch ' ') := by
  cases h with
  | @last line _ hempty =>
    have hline := hfold line rfl
    simp only [rawFields, fieldsFrom, List.map_cons, List.map_nil, emptyLine_normal hempty, render_cons, List.append_assoc,
      List.cons_append]
    exact ⟨head_not_space hline _, head_not_space hline _⟩
  | @cons line lines _ hne _ =>
    have hline := hfold line rfl
    obtain ⟨folds, fs, hfs⟩ := fieldsFrom_first line [] lines
    simp only [rawFields, hfs, List.map_cons, render_cons, List.append_assoc, List.cons_append]
    exact ⟨head_not_space hline _, head_not_space (normal_not_fold hline hne) _⟩

theorem normalise_status {r body : List Byte} {raw : List (List Byte)} (h : HeaderBlock r raw body) :
    statusIs200 (render (ch '\n') (normaliseHeader raw) ++ body) = statusIs200 r := by
  rw [h.text]
  cases h.block with
  | last _ _ => rfl
  | @cons status lines _ _ hlines =>
    obtain ⟨-, hrest⟩ := block_fields hlines
    obtain ⟨p, hp⟩ := @render_concat _ (ch '\n') (status :: lines.takeWhile isFold) (by simp)
    have hfold : ∀ line, (lines.dropWhile isFold).head? = some line → isFold line = false := by
      intro line hline
      have hnot := List.head?_dropWhile_not isFold lines
      rw [hline] at hnot
      exact hnot
    obtain ⟨hhead, hhead'⟩ := fields_head hrest hfold body
    have hsplit : render (ch '\n') (status :: lines) = render (ch '\n') (status :: lines.takeWhile isFold) ++
        render (ch '\n') (lines.dropWhile isFold) := by
      rw [← render_append, List.cons_append, List.takeWhile_append_dropWhile]
    rw [normaliseHeader, ← List.cons_append, render_append, hsplit, hp]
    simp only [List.append_assoc, List.singleton_append]
    exact statusIs200_append hhead' hhead

/-- The walk over a header and over its normal form. -/
theorem scan_normalise {raw : List (List Byte)} (h : PlainFields raw) (hs : HeaderScan) :
    (fieldLines (normaliseHeader raw)).foldlM scanHeaderLine hs = (fieldLines raw).foldlM scanHeaderLine hs := by
  cases raw with
  | nil => rfl
  | cons status lines =>
    have hlines : lines = lines.takeWhile isFold ++ (rawFields (lines.dropWhile isFold)).flatMap RawField.lines := by
      rw [rawFields_lines, List.takeWhile_append_dropWhile]
    simp only [fieldLines, normaliseHeader, List.map_cons, List.tail_cons]
    conv_rhs => rw [hlines]
    rw [List.map_append, List.map_append, List.foldlM_append, List.foldlM_append]
    congr 1
    funext hs'
    exact (scan_fields rawFields_folded h hs').symm

theorem evaluate_normalise {r : List Byte} (h : ∀ raw body, HeaderBlock r raw body → PlainFields raw) :
    cacheEvaluateResponse (normaliseResponse r) = cacheEvaluateResponse r := by
  unfold normaliseResponse
  split
  · rfl
  · rename_i raw body hblock
    have hb := headerBlock_iff.2 hblock
    have hb' : HeaderBlock (render (ch '\n') (normaliseHeader raw) ++ body) (normaliseHeader raw) body :=
      ⟨normaliseHeader_block hb.block, rfl⟩
    have hstatus := normalise_status hb
    cases hs : statusIs200 r with
    | false =>
      rw [hs] at hstatus
      simp [cacheEvaluateResponse, hs, hstatus]
    | true =>
      rw [hs] at hstatus
      rw [evaluate_block hs hb, evaluate_block hstatus hb', judgeLines, judgeLines, scan_normalise (h raw body hb)]

/-- A response is read with its blanks and folds where they do no harm. -/
def foldedWarning : List Byte := bytes "HTTP/1.1 200 OK\nWarning : 1\n 2\nVary: x\n\n"

/-- A directive that is not approved, on a line of its own. -/
def foldedPrivate : List Byte := bytes "HTTP/1.1 200 OK\nCache-Control: public,\n private\n\nhi"

end SecureProxy
