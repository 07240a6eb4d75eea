/-
Words of a text, and the fields a format of width-limited `%s` conversions reads
off it. A field takes no more than its width of a word; the next one goes on
where it stopped. So the fields are those of the words, of which one longer than
its field is cut in two. Last, the first place of a word in a text.
-/
import Mathlib.Data.List.TakeWhile

namespace Scan

variable {α : Type} {blank : α → Bool}

/-- What stands between blanks. -/
def words (blank : α → Bool) (s : List α) : List (List α) := (s.splitOnP blank).filter (!·.isEmpty)

/-- The conversions `%w₁s %w₂s …` of a text. -/
def fields (blank : α → Bool) : List Nat → List α → List (List α)
  | [], _ => []
  | k :: ks, s =>
    let s := s.dropWhile blank
    if s.isEmpty then []
    else
      let word := (s.takeWhile (!blank ·)).take k
      word :: fields blank ks (s.drop word.length)

/-- The same of words. -/
def fieldsOfWords : List Nat → List (List α) → List (List α)
  | [], _ => []
  | _ :: _, [] => []
  | k :: ks, w :: ws => w.take k :: fieldsOfWords ks (if w.length ≤ k then ws else w.drop k :: ws)

/-! ## Words -/

theorem words_blank {s : List α} (h : ∀ b ∈ s, blank b = true) (t : List α) : words blank (s ++ t) = words blank t := by
  induction s with
  | nil => rfl
  | cons b s ih =>
    rw [← ih fun b hb => h b (List.mem_cons_of_mem _ hb), words, words, List.cons_append, ← List.nil_append (b :: (s ++ t)),
      List.splitOnP_append_cons_of_forall_mem (by simp) b (h b List.mem_cons_self)]
    simp

theorem words_all_blank {s : List α} (h : ∀ b ∈ s, blank b = true) : words blank s = [] := by
  have hs := words_blank h []
  rw [List.append_nil] at hs
  rw [hs]
  simp [words]

/-- A word, and what comes after its end. -/
theorem words_cons {w rest : List α} (hne : w ≠ []) (hw : ∀ b ∈ w, blank b = false)
    (hrest : ∀ b ∈ rest.head?, blank b = true) : words blank (w ++ rest) = w :: words blank rest := by
  cases rest with
  | nil => simp [words, List.splitOnP_eq_singleton hw, hne]
  | cons b rest =>
    have hb : blank b = true := hrest b rfl
    have hskip := @words_blank _ blank [b] (by simpa using hb) rest
    rw [List.singleton_append] at hskip
    rw [hskip, words, List.splitOnP_append_cons_of_forall_mem hw b hb, List.filter_cons_of_pos (by simpa using hne)]
    rfl

/-- A blank at the end changes no word. -/
theorem words_concat_blank (s : List α) {b : α} (hb : blank b = true) : words blank (s ++ [b]) = words blank s := by
  rw [words, List.splitOnP_append_cons s [] hb]
  simp [words]

/-- A text is blank, or begins with a word after some blanks. -/
theorem exists_word (blank : α → Bool) (s : List α) :
    (∀ b ∈ s, blank b = true) ∨ ∃ pre w rest, s = pre ++ (w ++ rest) ∧ (∀ b ∈ pre, blank b = true) ∧ w ≠ [] ∧
      (∀ b ∈ w, blank b = false) ∧ ∀ b ∈ rest.head?, blank b = true := by
  by_cases hnil : s.dropWhile blank = []
  · exact .inl (List.dropWhile_eq_nil_iff.1 hnil)
  · have hfirst := List.head_dropWhile_not blank hnil
    generalize hs' : s.dropWhile blank = s' at hnil hfirst
    refine .inr ⟨s.takeWhile blank, s'.takeWhile (!blank ·), s'.dropWhile (!blank ·), ?_, fun b hb => List.mem_takeWhile_imp hb,
      ?_, fun b hb => by simpa using List.mem_takeWhile_imp hb, fun b hb => ?_⟩
    · rw [List.takeWhile_append_dropWhile, ← hs', List.takeWhile_append_dropWhile]
    · obtain ⟨b, s', rfl⟩ := List.exists_cons_of_ne_nil hnil
      simp_all
    · have hlast := List.head?_dropWhile_not (!blank ·) s'
      rw [hb] at hlast
      simpa using hlast

theorem words_eq_nil_iff {s : List α} : words blank s = [] ↔ ∀ b ∈ s, blank b = true := by
  refine ⟨fun h => ?_, words_all_blank⟩
  rcases exists_word blank s with hall | ⟨pre, w, rest, rfl, hpre, hne, hw, hrest⟩
  · exact hall
  · rw [words_blank hpre, words_cons hne hw hrest] at h
    cases h

/-! ## Fields -/

theorem fields_word {k : Nat} {ks : List Nat} {pre w rest : List α} (hpre : ∀ b ∈ pre, blank b = true) (hne : w ≠ [])
    (hw : ∀ b ∈ w, blank b = false) (hrest : ∀ b ∈ rest.head?, blank b = true) :
    fields blank (k :: ks) (pre ++ (w ++ rest)) = w.take k :: fields blank ks (w.drop k ++ rest) := by
  obtain ⟨b, w, rfl⟩ := List.exists_cons_of_ne_nil hne
  have hb : blank b = false := hw b List.mem_cons_self
  have hskip : (pre ++ (b :: w ++ rest)).dropWhile blank = b :: w ++ rest := by
    rw [List.dropWhile_append_of_pos hpre, List.cons_append, List.dropWhile_cons_of_neg (by simp [hb])]
  have htake : (b :: w ++ rest).takeWhile (!blank ·) = b :: w := by
    rw [List.takeWhile_append_of_pos fun b hb => by simp [hw b hb]]
    cases rest with
    | nil => simp
    | cons c rest => simp [hrest c rfl]
  have hdrop : (b :: w ++ rest).drop ((b :: w).take k).length = (b :: w).drop k ++ rest := by
    rw [List.length_take, List.drop_append_of_le_length (Nat.min_le_right ..)]
    by_cases hk : k ≤ (b :: w).length
    · rw [Nat.min_eq_left hk]
    · rw [Nat.min_eq_right (by omega), List.drop_length, List.drop_of_length_le (by omega)]
  rw [fields, hskip]
  dsimp only
  rw [htake, hdrop]
  simp

@[simp] theorem fieldsOfWords_nil (ks : List Nat) : fieldsOfWords ks ([] : List (List α)) = [] := by
  cases ks <;> rfl

theorem fieldsOfWords_le {k : Nat} {ks : List Nat} {w : List α} {ws : List (List α)} (h : w.length ≤ k) :
    fieldsOfWords (k :: ks) (w :: ws) = w :: fieldsOfWords ks ws := by
  rw [fieldsOfWords, if_pos h, List.take_of_length_le h]

theorem fieldsOfWords_gt {k : Nat} {ks : List Nat} {w : List α} {ws : List (List α)} (h : ¬ w.length ≤ k) :
    fieldsOfWords (k :: ks) (w :: ws) = w.take k :: fieldsOfWords ks (w.drop k :: ws) := by
  rw [fieldsOfWords, if_neg h]

/-- As many words fill as many fields. -/
theorem length_fieldsOfWords {ks : List Nat} {ws : List (List α)} (h : ks.length ≤ ws.length) :
    (fieldsOfWords ks ws).length = ks.length := by
  induction ks generalizing ws with
  | nil => rfl
  | cons k ks ih =>
    cases ws with
    | nil => simp at h
    | cons w ws =>
      rw [List.length_cons, List.length_cons] at h
      rw [fieldsOfWords, List.length_cons, List.length_cons, ih]
      split
      · omega
      · rw [List.length_cons]
        omega

/-- **The fields are those of the words.** -/
theorem fields_eq (ks : List Nat) (s : List α) : fields blank ks s = fieldsOfWords ks (words blank s) := by
  induction ks generalizing s with
  | nil => rfl
  | cons k ks ih =>
    rcases exists_word blank s with hall | ⟨pre, w, rest, rfl, hpre, hne, hw, hrest⟩
    · rw [words_all_blank hall, fields, List.dropWhile_eq_nil_iff.2 hall]
      rfl
    · rw [fields_word hpre hne hw hrest, words_blank hpre, words_cons hne hw hrest, fieldsOfWords, ih]
      by_cases hlen : w.length ≤ k
      · rw [if_pos hlen, List.drop_of_length_le hlen, List.nil_append]
      · have hdrop : w.drop k ≠ [] := by simpa using hlen
        rw [if_neg hlen, words_cons hdrop (fun b hb => hw b (List.mem_of_mem_drop hb)) hrest]

/-! ## The first place -/

/-- `strstr`: the text from the first place on where `needle` stands. -/
def strstr [BEq α] (needle : List α) : List α → Option (List α)
  | [] => if needle.isEmpty then some [] else none
  | b :: s => if needle.isPrefixOf (b :: s) then some (b :: s) else strstr needle s

/-- Its first two letters are not found together before it. -/
theorem strstr_first [BEq α] [LawfulBEq α] {a b : α} {needle front : List α} (h : ¬ [a, b] <:+: front ++ [a])
    (rest : List α) :
    strstr (a :: b :: needle) (front ++ (a :: b :: needle ++ rest)) = some (a :: b :: needle ++ rest) := by
  induction front with
  | nil => simp [strstr]
  | cons x front ih =>
    have hnot : (a :: b :: needle).isPrefixOf (x :: (front ++ (a :: b :: needle ++ rest))) = false := by
      rw [Bool.eq_false_iff]
      intro hpre
      obtain ⟨rfl, hpre⟩ : a = x ∧ (b :: needle) <+: front ++ (a :: b :: needle ++ rest) := by
        simpa [List.isPrefixOf_iff_prefix] using hpre
      refine h (List.IsPrefix.isInfix ?_)
      cases front with
      | nil =>
        obtain ⟨rfl, -⟩ : b = a ∧ _ := by simpa using hpre
        simp
      | cons y front =>
        obtain ⟨rfl, -⟩ : b = y ∧ _ := by simpa using hpre
        simp
    rw [List.cons_append, strstr, hnot, if_neg Bool.false_ne_true]
    exact ih fun hin => h (hin.trans (List.suffix_cons x _).isInfix)

end Scan
