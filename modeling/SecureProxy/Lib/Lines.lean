/-
Blocks of lines: a text in which every line ends with a separator, up to and
including the first line that closes the block, whatever comes after it.
-/
import Mathlib.Data.List.Basic
import Mathlib.Data.List.TakeWhile

namespace Lines

variable {α : Type} {sep : α} {closes : List α → Bool}

/-- Every line with its separator. -/
def render (sep : α) (lines : List (List α)) : List α := lines.flatMap (· ++ [sep])

/-- Lines without a separator in them, of which the last closes the block and
no other does. -/
inductive IsBlock (sep : α) (closes : List α → Bool) : List (List α) → Prop
  | last {line : List α} : sep ∉ line → closes line = true → IsBlock sep closes [line]
  | cons {line : List α} {lines : List (List α)} : sep ∉ line → closes line = false → IsBlock sep closes lines →
      IsBlock sep closes (line :: lines)

@[simp] theorem render_nil (sep : α) : render sep [] = [] := rfl

@[simp] theorem render_cons (sep : α) (line : List α) (lines : List (List α)) :
    render sep (line :: lines) = line ++ sep :: render sep lines := by
  simp [render]

@[simp] theorem render_append (sep : α) (lines lines' : List (List α)) :
    render sep (lines ++ lines') = render sep lines ++ render sep lines' :=
  List.flatMap_append

/-- Some lines end with a separator. -/
theorem render_concat {lines : List (List α)} (h : lines ≠ []) : ∃ s, render sep lines = s ++ [sep] := by
  rw [← List.dropLast_concat_getLast h]
  exact ⟨render sep lines.dropLast ++ lines.getLast h, by simp⟩

/-- What stands in joined pieces is the separator or stands in a piece. -/
theorem mem_intercalate {x : α} {pieces : List (List α)} (h : x ∈ [sep].intercalate pieces) :
    x = sep ∨ ∃ piece ∈ pieces, x ∈ piece := by
  induction pieces with
  | nil => simp at h
  | cons piece pieces ih =>
    cases pieces with
    | nil => exact .inr ⟨piece, List.mem_cons_self, by simpa [List.intercalate] using h⟩
    | cons piece' pieces =>
      have hjoin : [sep].intercalate (piece :: piece' :: pieces) = piece ++ sep :: [sep].intercalate (piece' :: pieces) := by
        simp [List.intercalate]
      rw [hjoin] at h
      rcases List.mem_append.1 h with h | h
      · exact .inr ⟨piece, List.mem_cons_self, h⟩
      · rcases List.mem_cons.1 h with h | h
        · exact .inl h
        · rcases ih h with h | ⟨q, hq, h⟩
          · exact .inl h
          · exact .inr ⟨q, List.mem_cons_of_mem _ hq, h⟩

theorem IsBlock.sep_notMem {lines : List (List α)} (h : IsBlock sep closes lines) : ∀ line ∈ lines, sep ∉ line := by
  induction h with
  | last hl _ => simpa using hl
  | cons hl _ _ ih =>
    intro line hm
    rcases List.mem_cons.1 hm with rfl | hm
    · exact hl
    · exact ih line hm

/-- Lines that do not close the block can stand before it. -/
theorem isBlock_append {pre lines : List (List α)} (h : ∀ line ∈ pre, sep ∉ line ∧ closes line = false) :
    IsBlock sep closes lines → IsBlock sep closes (pre ++ lines) := by
  intro hlines
  induction pre with
  | nil => exact hlines
  | cons line pre ih =>
    obtain ⟨hsep, hcloses⟩ := h line (by simp)
    exact .cons hsep hcloses (ih fun l hl => h l (by simp [hl]))

/-- They can be taken off it, too. -/
theorem IsBlock.of_append {pre lines : List (List α)} (hpre : ∀ line ∈ pre, closes line = false)
    (h : IsBlock sep closes (pre ++ lines)) : (∀ line ∈ pre, sep ∉ line) ∧ IsBlock sep closes lines := by
  induction pre with
  | nil => exact ⟨by simp, h⟩
  | cons line pre ih =>
    rw [List.cons_append] at h
    generalize hrest : pre ++ lines = rest at h
    cases h with
    | last _ hc =>
      rw [hpre line (by simp)] at hc
      cases hc
    | cons hsep _ hblock =>
      obtain ⟨hpre', hlines⟩ := ih (fun l hl => hpre l (by simp [hl])) (hrest ▸ hblock)
      exact ⟨List.forall_mem_cons.2 ⟨hsep, hpre'⟩, hlines⟩

/-- A text is without a separator, or a line and the text after it. -/
theorem text_induction (sep : α) {P : List α → Prop} (bare : ∀ s, sep ∉ s → P s)
    (line : ∀ l s, sep ∉ l → P s → P (l ++ sep :: s)) (s : List α) : P s := by
  induction hn : s.length using Nat.strongRecOn generalizing s with
  | ind n ih =>
    by_cases hs : sep ∈ s
    · obtain ⟨l, rest, rfl, hl⟩ := List.eq_append_cons_of_mem hs
      refine line l rest hl (ih rest.length ?_ rest rfl)
      simp only [List.length_append, List.length_cons] at hn
      omega
    · exact bare s hs

/-- A text that is empty or ends with a separator is whole lines. -/
theorem exists_render {s : List α} (h : s = [] ∨ s.getLast? = some sep) :
    ∃ ls, (∀ line ∈ ls, sep ∉ line) ∧ s = render sep ls := by
  induction s using text_induction sep with
  | bare s hs =>
    rcases h with rfl | h
    · exact ⟨[], by simp, rfl⟩
    · exact absurd (List.mem_of_getLast? h) hs
  | line l s hl ih =>
    obtain ⟨ls, hls, rfl⟩ : ∃ ls, (∀ line ∈ ls, sep ∉ line) ∧ s = render sep ls := by
      refine ih ?_
      by_cases hs : s = []
      · exact .inl hs
      · right
        rcases h with h | h
        · simp at h
        · rwa [List.getLast?_append_of_ne_nil _ (List.cons_ne_nil _ _), List.getLast?_cons_of_ne_nil hs] at h
    exact ⟨l :: ls, List.forall_mem_cons.2 ⟨hl, hls⟩, by simp⟩

/-- Lines one of which closes a block start with a block. -/
theorem exists_isBlock {ls : List (List α)} (hsep : ∀ line ∈ ls, sep ∉ line) (hc : ∃ line ∈ ls, closes line = true) :
    ∃ pre post, ls = pre ++ post ∧ IsBlock sep closes pre := by
  induction ls with
  | nil => simp at hc
  | cons line ls ih =>
    obtain ⟨hline, hls⟩ := List.forall_mem_cons.1 hsep
    cases h : closes line with
    | true => exact ⟨[line], ls, rfl, .last hline h⟩
    | false =>
      obtain ⟨closing, hmem, hclosing⟩ := hc
      rcases List.mem_cons.1 hmem with rfl | hmem
      · rw [h] at hclosing
        cases hclosing
      · obtain ⟨pre, post, rfl, hblock⟩ := ih hls ⟨closing, hmem, hclosing⟩
        exact ⟨line :: pre, post, rfl, .cons hline h hblock⟩

section

variable [DecidableEq α]

theorem ne_sep {l : List α} (h : sep ∉ l) : ∀ b ∈ l, (b != sep) = true := by
  intro b hb
  rw [bne_iff_ne]
  rintro rfl
  exact h hb

theorem takeWhile_bare {l : List α} (h : sep ∉ l) : l.takeWhile (· != sep) = l := List.takeWhile_eq_self_iff.2 (ne_sep h)

theorem takeWhile_line {l : List α} (h : sep ∉ l) (s : List α) : (l ++ sep :: s).takeWhile (· != sep) = l := by
  rw [List.takeWhile_append_of_pos (ne_sep h), List.takeWhile_cons_of_neg (by simp), List.append_nil]

/-- The lines of a text: what lies between its separators, the last with or
without one. -/
def lines (sep : α) (s : List α) : List (List α) :=
  if (s.splitOn sep).getLast? = some [] then (s.splitOn sep).dropLast else s.splitOn sep

theorem lines_bare {s : List α} (h : sep ∉ s) : lines sep s = if s = [] then [] else [s] := by
  simp [lines, List.splitOn_eq_singleton h]

theorem lines_line {l : List α} (h : sep ∉ l) (s : List α) : lines sep (l ++ sep :: s) = l :: lines sep s := by
  have hne := List.splitOn_ne_nil sep s
  simp only [lines, List.splitOn_append_cons_self_of_not_mem h, List.getLast?_cons_of_ne_nil hne,
    List.dropLast_cons_of_ne_nil hne]
  split <;> rfl

theorem mem_lines {s line : List α} (h : line ∈ lines sep s) : sep ∉ line ∧ ∀ b ∈ line, b ∈ s := by
  induction s using text_induction sep with
  | bare s hs =>
    rw [lines_bare hs] at h
    split at h
    · simp at h
    · obtain rfl := List.mem_singleton.1 h
      exact ⟨hs, fun _ => id⟩
  | line l s hl ih =>
    rw [lines_line hl] at h
    rcases List.mem_cons.1 h with rfl | h
    · exact ⟨hl, fun b hb => List.mem_append_left _ hb⟩
    · exact ⟨(ih h).1, fun b hb => List.mem_append_right _ (List.mem_cons_of_mem _ ((ih h).2 b hb))⟩

/-- The lines of a text up to the first that closes the block, and what comes
after it. `line` is what has been read of the current one. -/
def block (sep : α) (closes : List α → Bool) : List α → List α → Option (List (List α) × List α)
  | [], _ => none
  | b :: s, line =>
    if b = sep then
      if closes line then some ([line], s) else (block sep closes s []).map fun x => (line :: x.1, x.2)
    else block sep closes s (line ++ [b])

theorem block_bare {s : List α} (h : sep ∉ s) (line : List α) : block sep closes s line = none := by
  induction s generalizing line with
  | nil => rfl
  | cons b s ih =>
    obtain ⟨hb, hs⟩ := List.ne_and_not_mem_of_not_mem_cons h
    simp only [block, if_neg (Ne.symm hb)]
    exact ih hs _

/-- The next line is read, and closes the block or does not. -/
theorem block_line {l : List α} (h : sep ∉ l) (s line : List α) :
    block sep closes (l ++ sep :: s) line =
      if closes (line ++ l) then some ([line ++ l], s)
      else (block sep closes s []).map fun x => ((line ++ l) :: x.1, x.2) := by
  induction l generalizing line with
  | nil => simp [block]
  | cons b l ih =>
    obtain ⟨hb, hl⟩ := List.ne_and_not_mem_of_not_mem_cons h
    simp only [List.cons_append, block, if_neg (Ne.symm hb)]
    rw [ih hl, List.append_assoc, List.singleton_append]

/-- A block is read back, with whatever comes after it. -/
theorem IsBlock.block_render {lines : List (List α)} (h : IsBlock sep closes lines) (rest : List α) :
    block sep closes (render sep lines ++ rest) [] = some (lines, rest) := by
  induction h with
  | last hl hc => simp [block_line hl, hc]
  | cons hl hc _ ih => simp [block_line hl, hc, ih]

theorem block_eq_some_iff {s rest : List α} {lines : List (List α)} :
    block sep closes s [] = some (lines, rest) ↔ IsBlock sep closes lines ∧ s = render sep lines ++ rest := by
  constructor
  · intro h
    induction s using text_induction sep generalizing lines with
    | bare s hs => simp [block_bare hs] at h
    | line l s hl ih =>
      rw [block_line hl, List.nil_append] at h
      cases hc : closes l with
      | true =>
        simp only [hc, if_true, Option.some.injEq, Prod.mk.injEq] at h
        obtain ⟨rfl, rfl⟩ := h
        exact ⟨.last hl hc, by simp⟩
      | false =>
        simp only [hc, Bool.false_eq_true, if_false, Option.map_eq_some_iff] at h
        obtain ⟨⟨lines, rest'⟩, hb, heq⟩ := h
        obtain ⟨rfl, rfl⟩ := Prod.mk.inj heq
        obtain ⟨hblock, rfl⟩ := ih hb
        exact ⟨.cons hl hc hblock, by simp⟩
  · intro h'
    obtain ⟨h, rfl⟩ := h'
    exact h.block_render rest

/-- No shorter text of whole lines has a closing line in it. -/
theorem IsBlock.shortest {lines ls : List (List α)} {rest rest' : List α} (h : IsBlock sep closes lines)
    (hsep : ∀ line ∈ ls, sep ∉ line) (hc : ∃ line ∈ ls, closes line = true)
    (heq : render sep lines ++ rest = render sep ls ++ rest') : (render sep lines).length ≤ (render sep ls).length := by
  obtain ⟨pre, post, rfl, hpre⟩ := exists_isBlock hsep hc
  have hread := h.block_render rest
  rw [heq, render_append, List.append_assoc, hpre.block_render] at hread
  obtain ⟨rfl, -⟩ := Prod.mk.inj (Option.some.inj hread)
  rw [render_append, List.length_append]
  exact Nat.le_add_right _ _

end

end Lines
