/-
The header block of a response: where its lines begin and end, by the first
empty line, and that the scanners of `cache_evaluate_response` (the search for
the end, the cut into lines, the walk) agree on it.
-/
import SecureProxy.CacheEligibility
import SecureProxy.Lib.Lines

namespace SecureProxy

open Bytes Lines

/-- Nothing, or one CR. -/
def isEmptyLine (line : List Byte) : Bool := (dropCr line).isEmpty

/-- The response is a header block, up to and including its first empty line,
and a body. -/
structure HeaderBlock (r : List Byte) (raw : List (List Byte)) (body : List Byte) : Prop where
  block : IsBlock (ch '\n') isEmptyLine raw
  text : r = render (ch '\n') raw ++ body

/-- The lines after the first, without their line ends. -/
def fieldLines (raw : List (List Byte)) : List (List Byte) := (raw.map dropCr).tail

theorem prefix_dropCr (line : List Byte) : dropCr line <+: line := by
  unfold dropCr
  split
  · exact List.dropLast_prefix _
  · exact List.prefix_refl _

theorem isEmptyLine_iff {line : List Byte} : isEmptyLine line = true ↔ line = [] ∨ line = [ch '\r'] := by
  unfold isEmptyLine dropCr
  constructor
  · intro h
    split at h
    · rename_i hcr
      obtain ⟨init, rfl⟩ := List.getLast?_eq_some_iff.1 hcr
      rw [List.dropLast_concat] at h
      exact .inr (by simpa using h)
    · exact .inl (by simpa using h)
  · rintro (rfl | rfl) <;> decide

/-- What is skipped before the LF of a line. -/
theorem headerEnd_skip {l : List Byte} (h : ch '\n' ∉ l) (s : List Byte) :
    headerEnd (l ++ ch '\n' :: s) = (headerEnd (ch '\n' :: s)).map (· + l.length) := by
  induction l with
  | nil => simp
  | cons a l ih =>
    obtain ⟨ha, hl⟩ := List.ne_and_not_mem_of_not_mem_cons h
    have hstep : headerEnd (a :: (l ++ ch '\n' :: s)) = (headerEnd (l ++ ch '\n' :: s)).map (· + 1) := by
      cases l <;> simp [headerEnd, Ne.symm ha]
    rw [List.cons_append, hstep, ih hl, Option.map_map]
    congr 1

/-- A line that is not empty does not end the header block. -/
theorem headerEnd_line {l : List Byte} (h : ch '\n' ∉ l) (hl : isEmptyLine l = false) (s : List Byte) :
    headerEnd (ch '\n' :: (l ++ ch '\n' :: s)) = (headerEnd (ch '\n' :: s)).map (· + (l.length + 1)) := by
  have hstep : headerEnd (ch '\n' :: (l ++ ch '\n' :: s)) = (headerEnd (l ++ ch '\n' :: s)).map (· + 1) := by
    cases l with
    | nil => simp [isEmptyLine, dropCr] at hl
    | cons a l =>
      obtain ⟨ha, hl'⟩ := List.ne_and_not_mem_of_not_mem_cons h
      cases l with
      | nil =>
        have hcr : a ≠ ch '\r' := by
          rintro rfl
          simp [isEmptyLine, dropCr] at hl
        simp [headerEnd, Ne.symm ha, hcr]
      | cons b l =>
        have hb := (List.ne_and_not_mem_of_not_mem_cons hl').1
        simp [headerEnd, Ne.symm ha, Ne.symm hb]
  rw [hstep, headerEnd_skip h, Option.map_map]
  congr 1

theorem headerEnd_bare {s : List Byte} (h : ch '\n' ∉ s) : headerEnd s = none := by
  induction s with
  | nil => rfl
  | cons a s ih =>
    obtain ⟨ha, hs⟩ := List.ne_and_not_mem_of_not_mem_cons h
    cases s with
    | nil => rfl
    | cons b s =>
      simp only [headerEnd, Ne.symm ha, decide_false, Bool.false_and, Bool.false_eq_true, if_false]
      rw [ih hs]
      rfl

/-- After a line end, the search for the end of the header block reads line by
line. -/
theorem headerEnd_block (s : List Byte) : headerEnd (ch '\n' :: s) =
    (block (ch '\n') isEmptyLine s []).map fun x => (render (ch '\n') x.1).length + 1 := by
  induction s using text_induction (ch '\n') with
  | bare s hs =>
    rw [block_bare hs]
    cases s with
    | nil => rfl
    | cons b s =>
      obtain ⟨hb, hs'⟩ := List.ne_and_not_mem_of_not_mem_cons hs
      have hhead : s.head? ≠ some (ch '\n') := fun hc => hs' (List.mem_of_mem_head? hc)
      simp only [headerEnd, Ne.symm hb, hhead, decide_false, Bool.and_false, Bool.false_eq_true, if_false]
      rw [headerEnd_bare hs]
      rfl
  | line l s hl ih =>
    rw [block_line hl, List.nil_append]
    cases hc : isEmptyLine l with
    | true =>
      rcases isEmptyLine_iff.1 hc with rfl | rfl
      · simp [headerEnd]
      · have : ch '\r' ≠ ch '\n' := by decide
        simp [headerEnd, this]
    | false =>
      rw [headerEnd_line hl hc, ih]
      simp only [Bool.false_eq_true, if_false, Option.map_map]
      congr 1
      funext x
      simp only [Function.comp_apply, render_cons, List.length_append, List.length_cons]
      omega

theorem headerBlock_iff {r body : List Byte} {raw : List (List Byte)} :
    HeaderBlock r raw body ↔ block (ch '\n') isEmptyLine r [] = some (raw, body) := by
  rw [block_eq_some_iff]
  exact ⟨fun h => ⟨h.block, h.text⟩, fun h => ⟨h.1, h.2⟩⟩

theorem HeaderBlock.unique {r body body' : List Byte} {raw raw' : List (List Byte)} (h : HeaderBlock r raw body)
    (h' : HeaderBlock r raw' body') : raw = raw' ∧ body = body' := by
  have hsame := (headerBlock_iff.1 h).symm.trans (headerBlock_iff.1 h')
  exact Prod.mk.inj (Option.some.inj hsame)

theorem statusIs200_head {r : List Byte} (h : statusIs200 r = true) : r.head? = some (ch 'H') := by
  cases r with
  | nil => simp [statusIs200] at h
  | cons a r =>
    have hb : bytes "HTTP/1." = ch 'H' :: bytes "TTP/1." := rfl
    simp only [statusIs200, Bool.and_eq_true, beq_iff_eq, hb, List.take_succ_cons, List.cons.injEq] at h
    simp [h.1.1.1.2.1]

/-- The first line of a response that says 200 is not empty, so the search
finds the end of the header block. -/
theorem headerEnd_eq {r : List Byte} (h : r.head? = some (ch 'H')) : headerEnd r =
    (block (ch '\n') isEmptyLine r []).map fun x => (render (ch '\n') x.1).length := by
  by_cases hlf : ch '\n' ∈ r
  · obtain ⟨l, s, rfl, hl⟩ := List.eq_append_cons_of_mem hlf
    have hline : isEmptyLine l = false := by
      rw [Bool.eq_false_iff]
      intro hc
      rcases isEmptyLine_iff.1 hc with rfl | rfl
      · exact absurd (Option.some.inj h) (by decide)
      · exact absurd (Option.some.inj h) (by decide)
    rw [headerEnd_skip hl, headerEnd_block, block_line hl, List.nil_append, hline]
    simp only [Bool.false_eq_true, if_false, Option.map_map]
    congr 1
    funext x
    simp only [Function.comp_apply, render_cons, List.length_append, List.length_cons]
    omega
  · rw [headerEnd_bare hlf, block_bare hlf]
    rfl

theorem splitParts_render {sep : Byte} {lines : List (List Byte)} (h : ∀ l ∈ lines, sep ∉ l) :
    splitParts sep (render sep lines) [] = lines := by
  have hline : ∀ (l : List Byte) (s part : List Byte), sep ∉ l →
      splitParts sep (l ++ sep :: s) part = (part ++ l) :: splitParts sep s [] := by
    intro l
    induction l with
    | nil => simp [splitParts]
    | cons b l ih =>
      intro s part hb
      obtain ⟨hb, hl⟩ := List.ne_and_not_mem_of_not_mem_cons hb
      simp only [List.cons_append, splitParts, if_neg (Ne.symm hb)]
      rw [ih s _ hl, List.append_assoc, List.singleton_append]
  induction lines with
  | nil => simp [splitParts]
  | cons l lines ih =>
    rw [render_cons, hline l _ _ (h l (by simp)), List.nil_append, ih fun l hl => h l (by simp [hl])]

/-- The walk over the field lines, and what is made of it. -/
def judgeLines (lines : List (List Byte)) (bodyLen : Nat) : CacheVerdict :=
  match lines.foldlM scanHeaderLine {} with
  | .error reason => ⟨false, 0, reason⟩
  | .ok h => judge bodyLen h

/-- The three scanners agree on where the lines are. -/
theorem evaluate_block {r body : List Byte} {raw : List (List Byte)} (hs : statusIs200 r = true)
    (h : HeaderBlock r raw body) : cacheEvaluateResponse r = judgeLines (fieldLines raw) body.length := by
  have hend : headerEnd r = some (render (ch '\n') raw).length := by
    rw [headerEnd_eq (statusIs200_head hs), headerBlock_iff.1 h]
    rfl
  have htake : r.take (render (ch '\n') raw).length = render (ch '\n') raw := by simp [h.text]
  have hbody : r.length - (render (ch '\n') raw).length = body.length := by simp [h.text]
  simp only [cacheEvaluateResponse, hs, Bool.not_true, Bool.false_eq_true, if_false, hend, htake, hbody, scanHeaders,
    headerLines, splitParts_render h.block.sep_notMem]
  rfl

theorem evaluate_no_block {r : List Byte} (h : ∀ raw body, ¬ HeaderBlock r raw body) :
    (cacheEvaluateResponse r).cacheable = false := by
  unfold cacheEvaluateResponse
  split
  · rfl
  · rename_i hs
    have hnone : block (ch '\n') isEmptyLine r [] = none := by
      rw [Option.eq_none_iff_forall_ne_some]
      intro x hx
      exact h x.1 x.2 (headerBlock_iff.2 hx)
    rw [headerEnd_eq (statusIs200_head (by simpa using hs)), hnone]
    rfl

end SecureProxy
