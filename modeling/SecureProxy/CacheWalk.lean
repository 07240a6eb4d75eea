/-
The walk of `cache_evaluate_response` over the header block, and all of its
reads: they are within the response, the walk goes from line to line and ends
where the header block does, and the verdict is the one of `CacheEligibility`.
-/
import SecureProxy.CacheReadsFacts

namespace SecureProxy

open Bytes Lines Reads

section

variable {r : List Byte} {line n : Nat}

/-! ## One line -/

/-- A line that begins with a name has room for it. -/
theorem le_of_ciPrefix {name : List Byte} (h : line + n ≤ r.length) (hname : ciPrefix (slice r line n) name = true) :
    name.length ≤ n := by
  rw [ciPrefix, Bool.and_eq_true, decide_eq_true_eq, length_slice h] at hname
  exact hname.1

theorem result_noteCacheControlReads (h : line + n ≤ r.length) (hs : HeaderScan) :
    result (noteCacheControlReads r line n hs) = noteCacheControl (slice r line n) hs := by
  rw [noteCacheControlReads, result_bind, result_ite, result_ciPrefixReads h, noteCacheControl]
  by_cases hname : ciPrefix (slice r line n) (bytes "cache-control:") = true
  · have hlen : 14 ≤ n := (length_bytes _).ge.trans (le_of_ciPrefix h hname)
    rw [if_pos hname, if_pos hname, result_bind, result_parseCacheControlReads (by omega), slice_drop]
    cases parseCacheControl hs.lifetimes (slice r (line + 14) (n - 14)) <;> rfl
  · rw [if_neg hname, if_neg hname]
    rfl

theorem quiet_noteCacheControlReads {loop : CacheLoop} (hloop : loop ≠ .directives) (h : line + n ≤ r.length)
    (hs : HeaderScan) : Quiet (line + n) longBound loop (notes (noteCacheControlReads r line n hs)) := by
  rw [noteCacheControlReads, notes_bind, notes_ite, result_ciPrefixReads h]
  refine ((reads_ciPrefixReads _).quiet (Nat.le_refl _)).append ?_
  split
  · rename_i hname
    have hlen : 14 ≤ n := (length_bytes _).ge.trans (le_of_ciPrefix h hname)
    rw [notes_bind]
    refine Quiet.append ?_ ?_
    · have hvalue : line + 14 + (n - 14) = line + n := by omega
      have hdirectives := directiveNotes_parseCacheControlReads (hvalue ▸ h) hs.lifetimes
      exact hvalue ▸ hdirectives.quiet loop hloop
    · split <;> exact .nil
  · exact .nil

theorem result_noteContentLengthReads (h : line + n ≤ r.length) (hs : HeaderScan) :
    result (noteContentLengthReads r line n hs) = noteContentLength (slice r line n) hs := by
  rw [noteContentLengthReads, result_bind, result_ite, result_ciPrefixReads h, noteContentLength]
  by_cases hname : ciPrefix (slice r line n) (bytes "content-length:") = true
  · have hlen : 15 ≤ n := (length_bytes _).ge.trans (le_of_ciPrefix h hname)
    rw [if_pos hname, if_pos hname, result_bind, result_contentLengthReads h hlen]
    cases parseContentLength ((slice r line n).drop 15) <;> rfl
  · rw [if_neg hname, if_neg hname]
    rfl

theorem quiet_noteContentLengthReads {loop : CacheLoop} (h : line + n ≤ r.length) (hs : HeaderScan) :
    Quiet r.length longBound loop (notes (noteContentLengthReads r line n hs)) := by
  rw [noteContentLengthReads, notes_bind, notes_ite]
  refine ((reads_ciPrefixReads _).quiet h).append ?_
  split
  · rw [notes_bind]
    refine (quiet_contentLengthReads h).append ?_
    split <;> exact .nil
  · exact .nil

theorem result_scanHeaderLineReads (h : line + n ≤ r.length) (hpos : 0 < n) (hs : HeaderScan) :
    result (scanHeaderLineReads r line n hs) = scanHeaderLine hs (slice r line n) := by
  have hne : (slice r line n).isEmpty = false := by
    rw [Bool.eq_false_iff, ne_eq, List.isEmpty_iff]
    intro hnil
    have hlen := length_slice h
    rw [hnil, List.length_nil] at hlen
    omega
  simp only [scanHeaderLineReads, result_bind, result_ite, result_pure, result_orElseReads, result_andThenReads,
    result_ciPrefixReads h, result_ciContainsReads h, result_noteCacheControlReads h, scanHeaderLine, hne,
    Bool.false_eq_true, if_false]
  cases noteCacheControl (slice r line n) hs with
  | error reason => rfl
  | ok hs' => simp only [result_noteContentLengthReads h, Except.bind]

theorem quiet_scanHeaderLineReads {loop : CacheLoop} (hloop : loop ≠ .directives) (h : line + n ≤ r.length)
    (hs : HeaderScan) : Quiet r.length longBound loop (notes (scanHeaderLineReads r line n hs)) := by
  have hword : ∀ name, Quiet r.length longBound loop (notes (ciPrefixReads r line n name)) := fun name =>
    (reads_ciPrefixReads name).quiet h
  have hin : ∀ word, Quiet r.length longBound loop (notes (ciContainsReads r line n word)) := fun word =>
    (reads_ciContainsReads word).quiet h
  rw [scanHeaderLineReads, notes_bind, notes_ite]
  refine (hword _).append ?_
  split
  · exact .nil
  rw [notes_bind, notes_ite]
  refine (quiet_orElseReads (hword _) (hword _)).append ?_
  split
  · exact .nil
  rw [notes_bind, notes_ite]
  refine (quiet_andThenReads (hword _) fun _ => hin _).append ?_
  split
  · exact .nil
  rw [notes_bind, notes_ite]
  refine (quiet_andThenReads (hword _) fun _ => quiet_orElseReads (quiet_orElseReads (hin _) (hin _)) (hin _)).append ?_
  split
  · exact .nil
  rw [notes_bind]
  refine ((quiet_noteCacheControlReads hloop h hs).mono h).append ?_
  split
  · exact .nil
  · exact quiet_noteContentLengthReads h _

/-! ## The status line -/

theorem result_memcmpReads {i : Nat} {text : List Byte} (h : i + text.length ≤ r.length) :
    result (memcmpReads r i text) = ((r.drop i).take text.length == text) := by
  induction text generalizing i with
  | nil => rfl
  | cons c text ih =>
    rw [List.length_cons] at h
    have hi : i < r.length := by omega
    rw [memcmpReads, result_bind, result_bind, ih (by omega), List.drop_eq_getElem_cons hi, List.length_cons,
      List.take_succ_cons, result_readAt, List.getElem?_eq_getElem hi]
    rfl

theorem reads_memcmpReads {i : Nat} {text : List Byte} (h : i + text.length ≤ r.length) :
    ReadsBelow r.length (notes (memcmpReads r i text)) := by
  induction text generalizing i with
  | nil => exact .nil
  | cons c text ih =>
    rw [List.length_cons] at h
    rw [memcmpReads, notes_bind, notes_bind]
    exact (readsBelow_readAt (by omega)).append ((ih (by omega)).append .nil)

theorem result_statusIs200Reads (r : List Byte) : result (statusIs200Reads r) = statusIs200 r := by
  have h7 : (bytes "HTTP/1.").length = 7 := length_bytes _
  have h3 : (bytes "200").length = 3 := length_bytes _
  rw [statusIs200Reads, result_ite, statusIs200]
  by_cases hlen : r.length < 12
  · rw [if_pos hlen, decide_eq_false (by omega)]
    rfl
  · have h8 : r[8]? = some r[8] := List.getElem?_eq_getElem (by omega)
    rw [if_neg hlen, decide_eq_true (by omega), result_andThenReads, result_andThenReads, result_andThenReads,
      result_memcmpReads (by omega), result_memcmpReads (by omega), h7, h3, result_ite]
    simp only [List.drop_zero, Bool.true_and, Bool.and_assoc, result_bind, result_pure, result_readAt, h8,
      Option.getD_some, Option.some_beq_some]
    by_cases h12 : r.length > 12
    · rw [if_pos h12, List.getElem?_eq_getElem h12]
      rfl
    · rw [if_neg h12, List.getElem?_eq_none (by omega)]
      rfl

theorem reads_statusIs200Reads (r : List Byte) (loop : CacheLoop) :
    Quiet r.length longBound loop (notes (statusIs200Reads r)) := by
  have h7 : (bytes "HTTP/1.").length = 7 := length_bytes _
  have h3 : (bytes "200").length = 3 := length_bytes _
  rw [statusIs200Reads, notes_ite]
  split
  · exact .nil
  · refine quiet_andThenReads ((reads_memcmpReads (by omega)).quiet (Nat.le_refl _)) fun _ => ?_
    refine quiet_andThenReads ?_ fun _ => ?_
    · rw [notes_bind]
      exact ((readsBelow_readAt (by omega)).quiet (Nat.le_refl _)).append .nil
    · refine quiet_andThenReads ((reads_memcmpReads (by omega)).quiet (Nat.le_refl _)) fun _ => ?_
      rw [notes_ite]
      split
      · rw [notes_bind]
        exact ((readsBelow_readAt (by omega)).quiet (Nat.le_refl _)).append .nil
      · exact .nil

/-! ## The end of the header block -/

/-- One round of the search. -/
theorem headerEnd_drop {i : Nat} (h : i + 1 < r.length) : (headerEnd (r.drop i)).map (· + i) =
    match result (endsHereReads r i) with
    | some stop => some stop
    | none => (headerEnd (r.drop (i + 1))).map (· + (i + 1)) := by
  have ha : i < r.length := by omega
  have hdrop : r.drop i = r[i] :: r[i + 1] :: r.drop (i + 2) := by
    rw [List.drop_eq_getElem_cons ha, List.drop_eq_getElem_cons h]
  have hdrop' : r.drop (i + 1) = r[i + 1] :: r.drop (i + 2) := List.drop_eq_getElem_cons h
  have hhead : (r.drop (i + 2)).head? = r[i + 2]? := by rw [List.head?_drop]
  have hrest : ((headerEnd (r.drop (i + 1))).map (· + 1)).map (· + i) =
      (headerEnd (r.drop (i + 1))).map (· + (i + 1)) := by
    rw [Option.map_map]
    congr 1
    funext x
    simp only [Function.comp_apply]
    omega
  rw [hdrop, headerEnd, ← hdrop', hhead]
  simp only [endsHereReads, result_bind, result_ite, result_pure, result_readAt, List.getElem?_eq_getElem ha,
    List.getElem?_eq_getElem h, Option.getD_some, beq_iff_eq, Bool.and_eq_true, decide_eq_true_eq]
  by_cases hlf : r[i] = ch '\n'
  · by_cases hlf' : r[i + 1] = ch '\n'
    · simp only [hlf, hlf', and_self, if_true]
      simp [Nat.add_comm]
    · by_cases hcr : r[i + 1] = ch '\r'
      · have hne : ch '\r' ≠ ch '\n' := by decide
        by_cases hlen : i + 2 < r.length
        · by_cases hlf'' : r[i + 2] = ch '\n'
          · simp [hlf, hcr, hne, hlen, hlf'', Nat.add_comm]
          · simpa [hlf, hcr, hne, hlen, hlf''] using hrest
        · simpa [hlf, hcr, hne, hlen] using hrest
      · simpa [hlf, hlf', hcr] using hrest
  · simpa [hlf] using hrest

theorem result_headerEndReads (r : List Byte) (i : Nat) :
    result (headerEndReads r i) = (headerEnd (r.drop i)).map (· + i) := by
  induction hk : r.length - i generalizing i with
  | zero =>
    rw [headerEndReads, dif_neg (by omega), List.drop_of_length_le (by omega)]
    rfl
  | succ k ih =>
    rw [headerEndReads]
    split
    · rename_i h
      rw [result_bind, headerEnd_drop h]
      cases result (endsHereReads r i) with
      | some stop => rfl
      | none => exact ih (i + 1) (by omega)
    · rename_i h
      have hlast : (r.drop i).length = 1 := by rw [List.length_drop]; omega
      obtain ⟨b, hb⟩ := List.length_eq_one_iff.1 hlast
      rw [hb]
      rfl

theorem quiet_endsHereReads {i : Nat} (h : i + 1 < r.length) (loop : CacheLoop) :
    Quiet r.length longBound loop (notes (endsHereReads r i)) := by
  have hread : ∀ {j}, j < r.length → Quiet r.length longBound loop (notes (readAt r r.length j : CacheReading Byte)) :=
    fun hj => (readsBelow_readAt hj).quiet (Nat.le_refl _)
  rw [endsHereReads, notes_bind, notes_ite]
  refine (hread (by omega)).append ?_
  split
  · rw [notes_bind, notes_ite, notes_ite]
    refine (hread h).append ?_
    split
    · exact .nil
    · split
      · rename_i hcr
        rw [notes_bind]
        exact (hread (of_decide_eq_true (Bool.and_eq_true_iff.1 hcr).2)).append .nil
      · exact .nil
  · exact .nil

theorem quiet_headerEndReads (r : List Byte) (i : Nat) (loop : CacheLoop) :
    Quiet r.length longBound loop (notes (headerEndReads r i)) := by
  induction hk : r.length - i generalizing i with
  | zero =>
    rw [headerEndReads, dif_neg (by omega)]
    exact .nil
  | succ k ih =>
    rw [headerEndReads]
    split
    · rename_i h
      rw [notes_bind]
      refine (quiet_endsHereReads h loop).append ?_
      split
      · exact .nil
      · exact ih (i + 1) (by omega)
    · exact .nil

/-! ## The walk -/

/-- The line the walk is at. -/
structure AtLine (r : List Byte) (stop pos : Nat) (l : List Byte) : Prop where
  text : ∃ front rest, r = front ++ (l ++ ch '\n' :: rest) ∧ pos = front.length
  inside : pos + l.length + 1 ≤ stop
  block : stop ≤ r.length
  lf : ch '\n' ∉ l

theorem AtLine.eol {stop pos : Nat} {l : List Byte} (h : AtLine r stop pos l) :
    result (scanWhile (· != ch '\n') r r.length 0 stop pos : CacheReading Nat) = pos + l.length := by
  obtain ⟨⟨front, rest, hr, rfl⟩, hinside, hblock, hlf⟩ := h
  obtain ⟨k, hk⟩ : ∃ k, stop - front.length - l.length = k + 1 := ⟨stop - front.length - l.length - 1, by omega⟩
  have htake : (slice r 0 stop).drop front.length = l ++ ch '\n' :: rest.take k := by
    rw [slice_drop, Nat.zero_add, slice, hr, List.drop_left, List.take_append, List.take_of_length_le (by omega), hk,
      List.take_succ_cons]
  rw [result_scanWhile (by omega) (by omega), htake, takeWhile_line hlf]

/-- The line without its line end is `dropCr` of it. -/
theorem AtLine.lineLen {stop pos : Nat} {l : List Byte} (h : AtLine r stop pos l) :
    result (lineLenReads r pos (pos + l.length)) = (dropCr l).length := by
  obtain ⟨⟨front, rest, hr, rfl⟩, hinside, hblock, hlf⟩ := h
  rw [lineLenReads, Nat.add_sub_cancel_left, result_ite, result_bind, result_pure, result_pure, result_readAt]
  rcases List.eq_nil_or_concat l with rfl | ⟨init, b, rfl⟩
  · rfl
  · rw [List.concat_eq_append] at hr ⊢
    have hget : r[front.length + (init ++ [b]).length - 1]? = some b := by
      rw [hr, List.length_append, List.length_singleton, ← Nat.add_assoc, Nat.add_sub_cancel,
        List.getElem?_append_right (by omega), Nat.add_sub_cancel_left]
      simp
    rw [if_pos (by simp), hget, Option.getD_some]
    by_cases hb : b = ch '\r'
    · simp [dropCr, hb]
    · simp [dropCr, hb]

theorem AtLine.slice {stop pos : Nat} {l : List Byte} (h : AtLine r stop pos l) :
    Reads.slice r pos (dropCr l).length = dropCr l := by
  obtain ⟨⟨front, rest, hr, rfl⟩, -, -, -⟩ := h
  obtain ⟨tail, htail⟩ := prefix_dropCr l
  have hline : l ++ ch '\n' :: rest = dropCr l ++ (tail ++ ch '\n' :: rest) := by rw [← List.append_assoc, htail]
  rw [Reads.slice, hr, List.drop_left, hline, List.take_left]

theorem AtLine.length_le {stop pos : Nat} {l : List Byte} (h : AtLine r stop pos l) : pos + (dropCr l).length ≤ r.length := by
  have hle := (prefix_dropCr l).length_le
  have hinside := h.inside
  have hblock := h.block
  omega

/-- The first line is not looked at. -/
theorem AtLine.result_walkLine {stop pos : Nat} {l : List Byte} (h : AtLine r stop pos l) (hs : HeaderScan) :
    result (walkLineReads r pos (dropCr l).length hs) = if pos = 0 then .ok hs else scanHeaderLine hs (dropCr l) := by
  rw [walkLineReads, result_ite]
  by_cases hpos : pos = 0
  · rw [if_neg (by omega), if_pos hpos]
    rfl
  · rw [if_neg hpos]
    by_cases hempty : dropCr l = []
    · rw [hempty, if_neg (by simp)]
      simp [scanHeaderLine]
    · have hlen := List.length_pos_iff.2 hempty
      rw [if_pos ⟨hpos, hlen⟩, result_scanHeaderLineReads h.length_le hlen, h.slice]

theorem quiet_walkLineReads {loop : CacheLoop} (hloop : loop ≠ .directives) (h : line + n ≤ r.length) (hs : HeaderScan) :
    Quiet r.length longBound loop (notes (walkLineReads r line n hs)) := by
  rw [walkLineReads, notes_ite]
  split
  · exact quiet_scanHeaderLineReads hloop h hs
  · exact .nil

theorem quiet_lineLenReads {eol : Nat} {loop : CacheLoop} (h : eol ≤ r.length) :
    Quiet r.length longBound loop (notes (lineLenReads r line eol)) := by
  rw [lineLenReads, notes_ite]
  split
  · rw [notes_bind]
    exact ((readsBelow_readAt (by omega)).quiet (Nat.le_refl _)).append .nil
  · exact .nil

/-- The lines the walk still has before it. -/
structure LinesAt (r : List Byte) (stop pos : Nat) (ls : List (List Byte)) : Prop where
  text : ∃ front body, r = front ++ (render (ch '\n') ls ++ body) ∧ pos = front.length
  stop : stop = pos + (render (ch '\n') ls).length
  lf : ∀ l ∈ ls, ch '\n' ∉ l

theorem LinesAt.atLine {stop pos : Nat} {l : List Byte} {ls : List (List Byte)} (h : LinesAt r stop pos (l :: ls)) :
    AtLine r stop pos l := by
  obtain ⟨⟨front, body, hr, rfl⟩, hstop, hlf⟩ := h
  have hlen : stop ≤ r.length := by
    rw [hr, List.length_append, List.length_append]
    omega
  refine ⟨⟨front, render (ch '\n') ls ++ body, by simp [hr], rfl⟩, ?_, hlen, hlf l (by simp)⟩
  rw [hstop, render_cons, List.length_append, List.length_cons]
  omega

theorem LinesAt.next {stop pos : Nat} {l : List Byte} {ls : List (List Byte)} (h : LinesAt r stop pos (l :: ls)) :
    LinesAt r stop (pos + l.length + 1) ls := by
  obtain ⟨⟨front, body, hr, rfl⟩, hstop, hlf⟩ := h
  refine ⟨⟨front ++ (l ++ [ch '\n']), body, by simp [hr], by simp [Nat.add_assoc]⟩, ?_, fun l hl => hlf l (by simp [hl])⟩
  rw [hstop, render_cons, List.length_append, List.length_cons]
  omega

theorem result_headerWalk {stop pos rounds : Nat} {ls : List (List Byte)} (h : LinesAt r stop pos ls)
    (hrounds : ls.length < rounds) (hs : HeaderScan) : result (headerWalk r stop rounds pos hs) =
      ((if pos = 0 then ls.tail else ls).map dropCr).foldlM scanHeaderLine hs := by
  induction ls generalizing pos rounds hs with
  | nil =>
    obtain ⟨rounds, rfl⟩ : ∃ k, rounds = k + 1 := ⟨rounds - 1, by omega⟩
    have hstop := h.stop
    rw [render_nil, List.length_nil] at hstop
    rw [headerWalk, if_neg (by omega)]
    simp
    rfl
  | cons l ls ih =>
    obtain ⟨rounds, rfl⟩ : ∃ k, rounds = k + 1 := ⟨rounds - 1, by omega⟩
    rw [List.length_cons] at hrounds
    have hline := h.atLine
    have hinside := hline.inside
    rw [headerWalk, if_pos (by omega), result_bind, result_bind, result_bind, result_bind, hline.eol, hline.lineLen,
      hline.result_walkLine]
    have hnext : ∀ hs, result (headerWalk r stop rounds (pos + l.length + 1) hs) =
        (ls.map dropCr).foldlM scanHeaderLine hs := fun hs => by
      rw [ih h.next (by omega), if_neg (Nat.succ_ne_zero _)]
    by_cases hpos : pos = 0
    · rw [if_pos hpos, if_pos hpos, List.tail_cons]
      exact hnext hs
    · rw [if_neg hpos, if_neg hpos, List.map_cons, List.foldlM_cons]
      cases scanHeaderLine hs (dropCr l) with
      | error reason => rfl
      | ok hs => exact hnext hs

/-- All is in order, the walk goes forward, and it ends at `stop` or not at all. -/
structure WalkNotes (r : List Byte) (pos stop : Nat) (as : List (Access CacheLoop)) : Prop where
  ok : ∀ a ∈ as, a.Ok r.length longBound
  lines : Advances .lines pos stop as
  atEnd : ∀ p, .mark .linesEnd p ∈ as → p = stop

theorem WalkNotes.nil {pos stop : Nat} : WalkNotes r pos stop [] := ⟨by simp, .quiet (by simp), by simp⟩

theorem WalkNotes.append {pos stop : Nat} {as bs : List (Access CacheLoop)}
    (ha : ∀ loop, loop ≠ .directives → Quiet r.length longBound loop as) (hb : WalkNotes r pos stop bs) :
    WalkNotes r pos stop (as ++ bs) := by
  refine ⟨fun a h => ?_, .append (ha .lines (by decide)).unmarked hb.lines, fun p h => ?_⟩
  · exact (List.mem_append.1 h).elim ((ha .lines (by decide)).ok a) (hb.ok a)
  · exact (List.mem_append.1 h).elim (fun h => absurd h ((ha .linesEnd (by decide)).unmarked p)) (hb.atEnd p)

theorem WalkNotes.round {pos next stop : Nat} {as : List (Access CacheLoop)} (h : WalkNotes r next stop as)
    (hlt : pos < next) (hpos : pos < stop) : WalkNotes r pos stop ([.mark .lines pos] ++ as) := by
  refine ⟨fun a ha => ?_, h.lines.round hlt hpos, fun p hp => h.atEnd p (by simpa using hp)⟩
  rcases List.mem_append.1 ha with ha | ha
  · rw [List.mem_singleton.1 ha]
    trivial
  · exact h.ok a ha

theorem walkNotes_headerWalk {stop pos rounds : Nat} {ls : List (List Byte)} (h : LinesAt r stop pos ls)
    (hrounds : ls.length < rounds) (hs : HeaderScan) : WalkNotes r pos stop (notes (headerWalk r stop rounds pos hs)) := by
  induction ls generalizing pos rounds hs with
  | nil =>
    obtain ⟨rounds, rfl⟩ : ∃ k, rounds = k + 1 := ⟨rounds - 1, by omega⟩
    have hstop := h.stop
    rw [render_nil, List.length_nil] at hstop
    rw [headerWalk, if_neg (by omega)]
    exact ⟨by simp [Access.Ok], .quiet (by simp), by simpa using hstop.symm⟩
  | cons l ls ih =>
    obtain ⟨rounds, rfl⟩ : ∃ k, rounds = k + 1 := ⟨rounds - 1, by omega⟩
    rw [List.length_cons] at hrounds
    have hline := h.atLine
    have hinside := hline.inside
    have hblock := hline.block
    rw [headerWalk, if_pos (by omega), notes_bind, notes_bind, notes_bind, notes_bind, hline.eol, hline.lineLen]
    refine @WalkNotes.round r pos (pos + l.length + 1) stop _ (.append (fun _ _ => ?_) <| .append (fun _ _ => ?_) <|
      .append (fun _ hloop => ?_) ?_) (by omega) (by omega)
    · exact (readsBelow_scanWhile (by omega)).quiet (Nat.le_refl _)
    · exact quiet_lineLenReads (by omega)
    · exact quiet_walkLineReads hloop hline.length_le hs
    · split
      · exact .nil
      · exact ih h.next (by omega) _

/-- A walk that is not broken off comes to its end. -/
theorem ends_headerWalk {stop pos rounds : Nat} {ls : List (List Byte)} (h : LinesAt r stop pos ls)
    (hrounds : ls.length < rounds) {hs hs' : HeaderScan} (hok : result (headerWalk r stop rounds pos hs) = .ok hs') :
    .mark .linesEnd stop ∈ notes (headerWalk r stop rounds pos hs) := by
  induction ls generalizing pos rounds hs with
  | nil =>
    obtain ⟨rounds, rfl⟩ : ∃ k, rounds = k + 1 := ⟨rounds - 1, by omega⟩
    have hstop := h.stop
    rw [render_nil, List.length_nil] at hstop
    rw [headerWalk, if_neg (by omega)]
    simp [hstop]
  | cons l ls ih =>
    obtain ⟨rounds, rfl⟩ : ∃ k, rounds = k + 1 := ⟨rounds - 1, by omega⟩
    rw [List.length_cons] at hrounds
    have hline := h.atLine
    have hinside := hline.inside
    have hlt : pos < stop := by omega
    rw [headerWalk, if_pos hlt, result_bind, result_bind, result_bind, result_bind, hline.eol, hline.lineLen] at hok
    rw [headerWalk, if_pos hlt, notes_bind, notes_bind, notes_bind, notes_bind, hline.eol, hline.lineLen]
    cases hnoted : result (walkLineReads r pos (dropCr l).length hs) with
    | error reason =>
      rw [hnoted] at hok
      cases hok
    | ok hs =>
      rw [hnoted] at hok
      have hmem := ih h.next (by omega) hok
      simp only [List.mem_append]
      exact .inr (.inr (.inr (.inr hmem)))

end

/-! ## The response -/

theorem length_le_render (ls : List (List Byte)) : ls.length ≤ (render (ch '\n') ls).length := by
  induction ls with
  | nil => exact Nat.le_refl _
  | cons l ls ih =>
    rw [render_cons, List.length_cons, List.length_append, List.length_cons]
    omega

/-- The lines of the header block, where the search has found its end. -/
theorem exists_linesAt {r : List Byte} {stop : Nat} (hstatus : statusIs200 r = true) (hend : headerEnd r = some stop) :
    ∃ raw, LinesAt r stop 0 raw ∧ raw.length ≤ stop ∧
      scanHeaders (r.take stop) = (raw.tail.map dropCr).foldlM scanHeaderLine {} := by
  rw [headerEnd_eq (statusIs200_head hstatus), Option.map_eq_some_iff] at hend
  obtain ⟨⟨raw, body⟩, hblock, hstop⟩ := hend
  have hr := headerBlock_iff.2 hblock
  have hlf := hr.block.sep_notMem
  have hlen : stop = (render (ch '\n') raw).length := hstop.symm
  have htake : r.take stop = render (ch '\n') raw := by rw [hr.text, hlen, List.take_left]
  refine ⟨raw, ⟨⟨[], body, hr.text, rfl⟩, by omega, hlf⟩, ?_, ?_⟩
  · rw [hlen]
    exact length_le_render raw
  · rw [htake, scanHeaders, headerLines, splitParts_render hlf, List.map_tail]

/-- What `cache_evaluate_response` does with a response. -/
structure EvaluateReads (r : List Byte) (x : CacheReading CacheVerdict) : Prop where
  verdict : result x = cacheEvaluateResponse r
  ok : ∀ a ∈ notes x, a.Ok r.length longBound
  forward : (places .lines (notes x)).Pairwise (· < ·)
  inside : ∀ pos ∈ places .lines (notes x), ∃ stop, headerEnd r = some stop ∧ pos < stop
  atEnd : ∀ pos, .mark .linesEnd pos ∈ notes x → headerEnd r = some pos
  /-- Where no line breaks it off, the walk comes to its end. -/
  ends : ∀ stop hs, statusIs200 r = true → headerEnd r = some stop → scanHeaders (r.take stop) = .ok hs →
    .mark .linesEnd stop ∈ notes x

/-- A scan that notes nothing of the walk: the status or the header end has decided. -/
theorem evaluateReads_quiet {r : List Byte} {x : CacheReading CacheVerdict} (hverdict : result x = cacheEvaluateResponse r)
    (hquiet : ∀ loop, Quiet r.length longBound loop (notes x))
    (hnone : statusIs200 r = true → headerEnd r = none) : EvaluateReads r x := by
  have hplaces : places .lines (notes x) = [] := places_eq_nil (hquiet .lines).unmarked
  refine ⟨hverdict, (hquiet .lines).ok, by rw [hplaces]; exact .nil, by simp [hplaces], fun pos h => ?_, ?_⟩
  · exact absurd h ((hquiet .linesEnd).unmarked pos)
  · intro stop hs hstatus hend
    rw [hnone hstatus] at hend
    cases hend

/-- The walk, behind a search that has found the end of the header block. -/
theorem evaluateReads_walk {r : List Byte} {stop : Nat} {x : CacheReading CacheVerdict} {as bs : List (Access CacheLoop)}
    (hverdict : result x = cacheEvaluateResponse r) (hend : headerEnd r = some stop) (hnotes : notes x = as ++ bs)
    (has : ∀ loop, Quiet r.length longBound loop as) (hbs : WalkNotes r 0 stop bs)
    (hends : ∀ hs, scanHeaders (r.take stop) = .ok hs → .mark .linesEnd stop ∈ bs) : EvaluateReads r x := by
  have hall : WalkNotes r 0 stop (notes x) := hnotes ▸ WalkNotes.append (fun loop _ => has loop) hbs
  refine ⟨hverdict, hall.ok, hall.lines.forward, fun pos h => ⟨stop, hend, (hall.lines.range pos h).2⟩, fun pos h => ?_, ?_⟩
  · rw [hend, hall.atEnd pos h]
  · intro stop' hs _ hend' hscan
    obtain rfl : stop = stop' := Option.some.inj (hend.symm.trans hend')
    rw [hnotes]
    exact List.mem_append_right _ (hends hs hscan)

theorem evaluateReads (r : List Byte) : EvaluateReads r (cacheEvaluateResponseReads r) := by
  have hstatusNotes := reads_statusIs200Reads r
  have hendNotes := quiet_headerEndReads r 0
  have hfound : result (headerEndReads r 0) = headerEnd r := by
    rw [result_headerEndReads, List.drop_zero]
    simp
  cases hstatus : statusIs200 r with
  | false =>
    refine evaluateReads_quiet ?_ (fun loop => ?_) (fun h => by simp [hstatus] at h)
    · rw [cacheEvaluateResponseReads, result_bind, result_ite, result_statusIs200Reads, cacheEvaluateResponse, hstatus]
      rfl
    · rw [cacheEvaluateResponseReads, notes_bind, notes_ite, result_statusIs200Reads, hstatus]
      exact (hstatusNotes loop).append .nil
  | true =>
    cases hend : headerEnd r with
    | none =>
      refine evaluateReads_quiet ?_ (fun loop => ?_) (fun _ => hend)
      · rw [cacheEvaluateResponseReads, result_bind, result_ite, result_bind, result_statusIs200Reads, hfound,
          cacheEvaluateResponse, hstatus, hend]
        rfl
      · rw [cacheEvaluateResponseReads, notes_bind, notes_ite, notes_bind, result_statusIs200Reads, hfound, hstatus, hend]
        exact (hstatusNotes loop).append ((hendNotes loop).append .nil)
    | some stop =>
      obtain ⟨raw, hlines, hraw, hscan⟩ := exists_linesAt hstatus hend
      have hrounds : raw.length < stop + 1 := by omega
      have hwalk : result (headerWalk r stop (stop + 1) 0 {}) = scanHeaders (r.take stop) := by
        rw [result_headerWalk hlines hrounds, if_pos rfl, hscan]
      refine evaluateReads_walk ?_ hend ?_ (fun loop => (hstatusNotes loop).append (hendNotes loop))
        (walkNotes_headerWalk hlines hrounds {}) (fun hs hok => ends_headerWalk hlines hrounds (hwalk.trans hok))
      · rw [cacheEvaluateResponseReads, result_bind, result_ite, result_bind, result_statusIs200Reads, hfound,
          cacheEvaluateResponse, hstatus, hend]
        simp only [Bool.not_true, Bool.false_eq_true, if_false, result_bind, hwalk]
        cases scanHeaders (r.take stop) <;> rfl
      · rw [cacheEvaluateResponseReads, notes_bind, notes_ite, notes_bind, result_statusIs200Reads, hfound, hstatus, hend]
        simp only [Bool.not_true, Bool.false_eq_true, if_false, notes_bind, hwalk, List.append_assoc]
        cases scanHeaders (r.take stop) <;> simp

/-- The scanners of `cache.c`, given any bytes between any others: they compute
what `CacheEligibility` says, read below the length they are given and nothing
else, and let no `long` overflow; the loops over the directives and the header
lines go forward at every round, and the walk over the lines ends where the
header block does. -/
theorem cacheScanners_inBounds :
    (∀ front s back name, let x := ciPrefixReads (front ++ s ++ back) front.length s.length name
      result x = ciPrefix s name ∧ ReadsBelow (front.length + s.length) (notes x)) ∧
    (∀ front s back needle, let x := ciContainsReads (front ++ s ++ back) front.length s.length needle
      result x = ciContains s needle ∧ ReadsBelow (front.length + s.length) (notes x)) ∧
    (∀ front v back lt, let x := parseCacheControlReads (front ++ v ++ back) front.length v.length lt
      result x = parseCacheControl lt v ∧ (∀ a ∈ notes x, a.Ok (front.length + v.length) longBound) ∧
        Advances .directives 0 v.length (notes x)) ∧
    ∀ r, EvaluateReads r (cacheEvaluateResponseReads r) := by
  have hle : ∀ front s back : List Byte, front.length + s.length ≤ (front ++ s ++ back).length := by
    intro front s back
    simp only [List.length_append]
    omega
  refine ⟨fun front s back name => ⟨?_, reads_ciPrefixReads name⟩,
    fun front s back needle => ⟨?_, reads_ciContainsReads needle⟩, fun front v back lt => ?_, evaluateReads⟩
  · rw [result_ciPrefixReads (hle front s back), slice_append]
  · rw [result_ciContainsReads (hle front s back), slice_append]
  · have hnotes := directiveNotes_parseCacheControlReads (hle front v back) lt
    refine ⟨?_, (hnotes.quiet .lines (by decide)).ok, hnotes.advances⟩
    rw [result_parseCacheControlReads (hle front v back), slice_append]

end SecureProxy
