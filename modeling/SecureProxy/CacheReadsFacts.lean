/-
The scanners of `cache_evaluate_response` come to what `CacheEligibility` says
of the same bytes, read nothing they were not given, and go forward.
-/
import SecureProxy.CacheReads

namespace SecureProxy

open Bytes Reads

/-- `LONG_MAX + 1`. -/
def longBound : Nat := 2 ^ 63

section

variable {len bound : Nat} {loop : CacheLoop} {a b : CacheReading Bool}

@[simp] theorem result_orElseReads : result (orElseReads a b) = (result a || result b) := by
  rw [orElseReads, result_bind, result_ite]
  cases result a <;> rfl

@[simp] theorem result_andThenReads : result (andThenReads a b) = (result a && result b) := by
  rw [andThenReads, result_bind, result_ite]
  cases result a <;> rfl

theorem quiet_orElseReads (ha : Quiet len bound loop (notes a)) (hb : Quiet len bound loop (notes b)) :
    Quiet len bound loop (notes (orElseReads a b)) := by
  rw [orElseReads, notes_bind, notes_ite]
  refine ha.append ?_
  split
  · exact .nil
  · exact hb

/-- The second part may rely on the first. -/
theorem quiet_andThenReads (ha : Quiet len bound loop (notes a)) (hb : result a = true → Quiet len bound loop (notes b)) :
    Quiet len bound loop (notes (andThenReads a b)) := by
  rw [andThenReads, notes_bind, notes_ite]
  refine ha.append ?_
  split
  · exact hb ‹_›
  · exact .nil

end

section

variable {r : List Byte} {s n : Nat}

/-! ## Words -/

theorem result_ciPrefixLoop (h : s + n ≤ r.length) {name : List Byte} {i : Nat} (hi : i + name.length ≤ n) :
    result (ciPrefixLoop r s n name i) =
      ((((slice r s n).drop i).take name.length).map toLower == name.map toLower) := by
  induction name generalizing i with
  | nil => simp [ciPrefixLoop]
  | cons c name ih =>
    rw [List.length_cons] at hi
    have hlen : i < (slice r s n).length := by rw [length_slice h]; omega
    rw [ciPrefixLoop, result_bind, result_ite, result_readAt, getD_slice hlen, List.drop_eq_getElem_cons hlen,
      List.length_cons, List.take_succ_cons, List.map_cons, List.map_cons, ih (by omega)]
    by_cases hc : toLower (slice r s n)[i] = toLower c
    · simp [hc]
    · simp [hc]

theorem reads_ciPrefixLoop {name : List Byte} {i : Nat} (hi : i + name.length ≤ n) :
    ReadsBelow (s + n) (notes (ciPrefixLoop r s n name i)) := by
  induction name generalizing i with
  | nil => exact .nil
  | cons c name ih =>
    rw [List.length_cons] at hi
    rw [ciPrefixLoop, notes_bind, notes_ite]
    refine (readsBelow_readAt (by omega)).append ?_
    split
    · exact .nil
    · exact ih (by omega)

theorem result_ciPrefixReads (h : s + n ≤ r.length) (name : List Byte) :
    result (ciPrefixReads r s n name) = ciPrefix (slice r s n) name := by
  rw [ciPrefixReads, ciPrefix, length_slice h, result_ite]
  by_cases hn : n < name.length
  · rw [if_pos hn, decide_eq_false (by omega)]
    rfl
  · rw [if_neg hn, decide_eq_true (by omega), result_ciPrefixLoop h (by omega), List.drop_zero]
    rfl

theorem reads_ciPrefixReads (name : List Byte) : ReadsBelow (s + n) (notes (ciPrefixReads r s n name)) := by
  rw [ciPrefixReads, notes_ite]
  split
  · exact .nil
  · exact reads_ciPrefixLoop (by omega)

theorem ciPrefix_short {s name : List Byte} (h : s.length < name.length) : ciPrefix s name = false := by
  rw [ciPrefix, decide_eq_false (by omega)]
  rfl

theorem result_ciContainsLoop (h : s + n ≤ r.length) (needle : List Byte) {i : Nat} (hi : i ≤ n) :
    result (ciContainsLoop r s n needle i) = ((slice r s n).drop i).tails.any fun rest => ciPrefix rest needle := by
  induction hk : n - i generalizing i with
  | zero =>
    obtain rfl : i = n := by omega
    rw [ciContainsLoop, List.drop_of_length_le (Nat.le_of_eq (length_slice h))]
    split
    · rename_i hneedle
      obtain rfl : needle = [] := List.length_eq_zero_iff.1 (by omega)
      rw [result_bind, result_ite, result_ciPrefixReads (by omega)]
      simp [ciPrefix]
    · simp [ciPrefix_short (s := []) (show 0 < needle.length by omega)]
  | succ k ih =>
    have hlen : i < (slice r s n).length := by rw [length_slice h]; omega
    rw [ciContainsLoop]
    split
    · rw [result_bind, result_ite, result_ciPrefixReads (by omega), ← slice_drop, ih (by omega) (by omega)]
      rw [List.drop_eq_getElem_cons hlen, List.tails_cons, List.any_cons]
      cases ciPrefix ((slice r s n)[i] :: (slice r s n).drop (i + 1)) needle <;> rfl
    · rw [result_pure, eq_comm, List.any_eq_false]
      intro rest hrest
      have hle := ((List.mem_tails _ _).1 hrest).length_le
      rw [List.length_drop, length_slice h] at hle
      rw [ciPrefix_short (by omega)]
      exact Bool.false_ne_true

theorem reads_ciContainsLoop (needle : List Byte) {i : Nat} :
    ReadsBelow (s + n) (notes (ciContainsLoop r s n needle i)) := by
  induction hk : n + 1 - i generalizing i with
  | zero =>
    rw [ciContainsLoop, dif_neg (by omega)]
    exact .nil
  | succ k ih =>
    rw [ciContainsLoop]
    split
    · have hbound : s + i + (n - i) = s + n := by omega
      rw [notes_bind, notes_ite]
      refine (hbound ▸ reads_ciPrefixReads needle).append ?_
      split
      · exact .nil
      · exact ih (by omega)
    · exact .nil

theorem result_ciContainsReads (h : s + n ≤ r.length) (needle : List Byte) :
    result (ciContainsReads r s n needle) = ciContains (slice r s n) needle :=
  result_ciContainsLoop h needle (Nat.zero_le n)

theorem reads_ciContainsReads (needle : List Byte) : ReadsBelow (s + n) (notes (ciContainsReads r s n needle)) :=
  reads_ciContainsLoop needle

/-! ## Numbers -/

theorem digitVal_le {b : Byte} (h : isDigit b = true) : digitVal b ≤ 9 :=
  forall_byte (P := fun b => isDigit b = true → digitVal b ≤ 9) (by decide +kernel) b h

theorem result_trimEndLoop {limit v start stop : Nat} (h : v + stop ≤ r.length) (hle : start ≤ stop) :
    result (trimEndLoop r limit v start stop) =
      start + ((slice r (v + start) (stop - start)).rdropWhile isBlank).length := by
  induction stop with
  | zero =>
    obtain rfl : start = 0 := by omega
    simp [trimEndLoop, slice]
  | succ stop ih =>
    rw [trimEndLoop, result_ite]
    by_cases hlt : start < stop + 1
    · have hpos : v + start + (stop - start) = v + stop := by omega
      rw [if_pos hlt, result_bind, result_ite, result_readAt, ih (by omega) (by omega),
        show stop + 1 - start = stop - start + 1 by omega, slice_succ (by omega), hpos, List.rdropWhile_concat]
      by_cases hb : isBlank (r[v + stop]?.getD default) = true
      · rw [if_pos hb, if_pos hb]
      · rw [if_neg hb, if_neg hb, List.length_append, length_slice (by omega)]
        simp only [result_pure, List.length_singleton]
        omega
    · rw [if_neg hlt, show stop + 1 - start = 0 by omega]
      simp only [result_pure, slice, List.take_zero, List.rdropWhile_nil, List.length_nil]
      omega

theorem reads_trimEndLoop {limit v start stop : Nat} (h : v + stop ≤ limit) :
    ReadsBelow limit (notes (trimEndLoop r limit v start stop)) := by
  induction stop with
  | zero => exact .nil
  | succ stop ih =>
    rw [trimEndLoop, notes_ite]
    split
    · rw [notes_bind, notes_ite]
      refine (readsBelow_readAt (by omega)).append ?_
      split
      · exact ih (by omega)
      · exact .nil
    · exact .nil

theorem result_secondsLoop {limit num left k val : Nat} (h : num + k + left ≤ r.length) :
    result (secondsLoop r limit num left k val) =
      if (slice r (num + k) left).all isDigit then
        some ((slice r (num + k) left).foldl (fun v d => v * 10 + digitVal d) val) else none := by
  induction left generalizing k val with
  | zero => simp [secondsLoop, slice]
  | succ left ih =>
    rw [secondsLoop, result_bind, result_ite, result_readAt, slice_cons (by omega), List.all_cons, List.foldl_cons]
    by_cases hb : isDigit (r[num + k]?.getD default) = true
    · simp only [hb, Bool.not_true, Bool.false_eq_true, if_false, result_bind, Bool.true_and]
      exact ih (by omega)
    · simp [hb]

/-- Nine digits stay far below the bound. -/
theorem quiet_secondsLoop {limit num left k val : Nat} {loop : CacheLoop} (h : num + k + left ≤ limit)
    (hval : val < 10 ^ k) (hk : k + left ≤ 9) :
    Quiet limit longBound loop (notes (secondsLoop r limit num left k val)) := by
  induction left generalizing k val with
  | zero => exact .nil
  | succ left ih =>
    rw [secondsLoop, notes_bind, notes_ite]
    refine ((readsBelow_readAt (by omega)).quiet (Nat.le_refl _)).append ?_
    split
    · exact .nil
    · rename_i hb
      have hdigit : digitVal (r[num + k]?.getD default) ≤ 9 := digitVal_le (by simpa using hb)
      have hnext : val * 10 + digitVal (r[num + k]?.getD default) < 10 ^ (k + 1) := by
        rw [Nat.pow_succ]
        omega
      have hle : 10 ^ (k + 1) ≤ 10 ^ 9 := Nat.pow_le_pow_right (by omega) (by omega)
      have hlong : 10 ^ 9 < longBound := by decide
      exact (Quiet.value (Nat.lt_trans (Nat.lt_of_lt_of_le hnext hle) hlong)).append (ih (by omega) hnext (by omega))

theorem result_secondsReads {limit d dl : Nat} (h : d + dl ≤ r.length) (skip : Nat) :
    result (secondsReads r limit d dl skip) = parseSeconds ((slice r d dl).drop skip) := by
  have hlen : ((slice r d dl).drop skip).length = dl - skip := by rw [List.length_drop, length_slice h]
  rw [secondsReads, parseSeconds, hlen, slice_drop, result_ite, result_pure]
  by_cases hnl : (decide (dl - skip = 0) || decide (dl - skip > 9)) = true
  · rw [if_pos hnl, hnl]
    rfl
  · have hskip : skip ≤ dl := by
      simp only [Bool.or_eq_true, decide_eq_true_eq] at hnl
      omega
    have hfalse : (decide (dl - skip = 0) || decide (dl - skip > 9)) = false := by simpa using hnl
    rw [if_neg hnl, hfalse, result_secondsLoop (by omega), Nat.add_zero]
    cases (slice r (d + skip) (dl - skip)).all isDigit <;> rfl

theorem quiet_secondsReads {limit d dl : Nat} {loop : CacheLoop} (h : d + dl ≤ limit) (skip : Nat) :
    Quiet limit longBound loop (notes (secondsReads r limit d dl skip)) := by
  rw [secondsReads, notes_ite]
  split
  · exact .nil
  · rename_i hnl
    simp only [Bool.or_eq_true, decide_eq_true_eq, not_or] at hnl
    exact quiet_secondsLoop (by omega) (by decide) (by omega)

/-! ## Directives -/

theorem result_directiveReads {limit d dl : Nat} (h : d + dl ≤ r.length) (hpos : 0 < dl) (lt : Lifetimes) :
    result (directiveReads r limit lt d dl) = parseDirective lt (slice r d dl) := by
  have hlen := length_slice h
  have hne : (slice r d dl).isEmpty = false := by
    rw [Bool.eq_false_iff, ne_eq, List.isEmpty_iff]
    intro hnil
    rw [hnil] at hlen
    simp at hlen
    omega
  have hpub : (dl == 6) = decide (dl = 6) := rfl
  simp only [directiveReads, result_bind, result_ite, result_pure, result_andThenReads, result_ciPrefixReads h,
    result_secondsReads h, parseDirective, hne, hlen, hpub, Bool.false_eq_true, if_false]
  cases ciPrefix (slice r d dl) (bytes "max-age=") with
  | true => rfl
  | false =>
    cases ciPrefix (slice r d dl) (bytes "s-maxage=") with
    | true => rfl
    | false => rfl

theorem quiet_directiveReads {limit d dl : Nat} {loop : CacheLoop} (h : d + dl ≤ limit) (lt : Lifetimes) :
    Quiet limit longBound loop (notes (directiveReads r limit lt d dl)) := by
  have hword : ∀ name, Quiet limit longBound loop (notes (ciPrefixReads r d dl name)) := fun name =>
    (reads_ciPrefixReads name).quiet h
  rw [directiveReads, notes_bind, notes_ite]
  refine (quiet_andThenReads .nil fun _ => hword _).append ?_
  split
  · exact .nil
  · rw [notes_bind, notes_bind, notes_ite]
    refine (hword _).append ((hword _).append ?_)
    split
    · rw [notes_bind]
      exact (quiet_secondsReads h _).append .nil
    · exact .nil

theorem trim_cons_blank {b : Byte} (hb : isBlank b = true) (s : List Byte) : trim (b :: s) = trim s := by
  rw [trim, trim, List.dropWhile_cons_of_pos hb]

/-- A blank before a part of a value is cut off with the blanks around it. -/
theorem foldlM_splitParts_blank {b : Byte} (hb : isBlank b = true) (lt : Lifetimes) (s part : List Byte) :
    (splitParts (ch ',') s (b :: part)).foldlM (fun lt d => parseDirective lt (trim d)) lt =
      (splitParts (ch ',') s part).foldlM (fun lt d => parseDirective lt (trim d)) lt := by
  induction s generalizing part with
  | nil =>
    cases part with
    | nil =>
      have hnil : trim [b] = [] := by rw [trim_cons_blank hb]; rfl
      simp [splitParts, hnil, parseDirective]
    | cons c part => simp [splitParts, trim_cons_blank hb]
  | cons c s ih =>
    simp only [splitParts]
    split
    · simp only [List.foldlM_cons, trim_cons_blank hb]
    · exact ih (part ++ [c])

theorem parseCacheControl_separator {b : Byte} (hb : isSeparator b = true) (lt : Lifetimes) (s : List Byte) :
    parseCacheControl lt (b :: s) = parseCacheControl lt s := by
  show (splitParts (ch ',') (b :: s) []).foldlM (fun lt d => parseDirective lt (trim d)) lt =
    (splitParts (ch ',') s []).foldlM (fun lt d => parseDirective lt (trim d)) lt
  by_cases hcomma : b = ch ','
  · subst hcomma
    rw [splitParts, if_pos rfl, List.foldlM_cons]
    rfl
  · have hblank : isBlank b = true := by simpa [isSeparator, hcomma] using hb
    rw [splitParts, if_neg hcomma, List.nil_append]
    exact foldlM_splitParts_blank hblank lt s []

theorem parseCacheControl_separators {l : List Byte} (hl : ∀ b ∈ l, isSeparator b = true) (lt : Lifetimes) (s : List Byte) :
    parseCacheControl lt (l ++ s) = parseCacheControl lt s := by
  induction l with
  | nil => rfl
  | cons b l ih =>
    rw [List.cons_append, parseCacheControl_separator (hl b (by simp)), ih fun c hc => hl c (by simp [hc])]

/-- The part up to the next comma, and the rest. -/
theorem parseCacheControl_part {d rest : List Byte} (hd : ch ',' ∉ d) (hrest : ∀ b ∈ rest.head?, b = ch ',')
    (lt : Lifetimes) : parseCacheControl lt (d ++ rest) =
      (parseDirective lt (trim d)).bind fun lt => parseCacheControl lt rest := by
  have hparts : ∀ part, splitParts (ch ',') (d ++ rest) part =
      match rest with
      | [] => if (part ++ d).isEmpty then [] else [part ++ d]
      | _ :: s => (part ++ d) :: splitParts (ch ',') s [] := by
    induction d with
    | nil =>
      intro part
      cases rest with
      | nil => simp [splitParts]
      | cons c s =>
        obtain rfl := hrest c rfl
        simp [splitParts]
    | cons c d ih =>
      intro part
      obtain ⟨hc, hd⟩ := List.ne_and_not_mem_of_not_mem_cons hd
      rw [List.cons_append, splitParts, if_neg (Ne.symm hc), ih hd]
      simp
  show (splitParts (ch ',') (d ++ rest) []).foldlM (fun lt d => parseDirective lt (trim d)) lt = _
  rw [hparts]
  cases rest with
  | nil =>
    by_cases hnil : d = []
    · subst hnil
      rfl
    · simp [hnil, parseCacheControl, splitParts]
  | cons c s =>
    obtain rfl := hrest c rfl
    simp only [List.nil_append, List.foldlM_cons, parseCacheControl_separator (b := ch ',') (by decide)]
    rfl

/-- The part of a value between two commas the loop takes in one round, at `i`. -/
structure DirectivePart (value : List Byte) (i start next : Nat) (d : List Byte) : Prop where
  first : i ≤ start
  forward : i < next
  last : next ≤ value.length
  length : start + d.length = next
  text : value.drop start = d ++ value.drop next
  comma : ch ',' ∉ d
  rest : ∀ b ∈ (value.drop next).head?, b = ch ','
  separators : ∃ l, (∀ b ∈ l, isSeparator b = true) ∧ value.drop i = l ++ value.drop start
  tight : ∀ b ∈ d.head?, isBlank b = false

/-- A round skips a separator, or takes a byte of a directive. -/
theorem directive_forward {value : List Byte} {i : Nat} (hi : i < value.length) :
    0 < ((value.drop i).takeWhile isSeparator).length ∨ 0 < ((value.drop i).takeWhile (· != ch ',')).length := by
  rw [List.drop_eq_getElem_cons hi, List.takeWhile_cons, List.takeWhile_cons]
  by_cases hsep : isSeparator value[i] = true
  · rw [if_pos hsep, List.length_cons]
    exact .inl (Nat.succ_pos _)
  · have hcomma : (value[i] != ch ',') = true := by
      rw [bne_iff_ne]
      intro hc
      rw [hc] at hsep
      exact hsep (by decide)
    rw [if_pos hcomma, List.length_cons]
    exact .inr (Nat.succ_pos _)

theorem directivePart {value : List Byte} {i start next : Nat} (hi : i < value.length)
    (hstart : start = i + ((value.drop i).takeWhile isSeparator).length)
    (hnext : next = start + ((value.drop start).takeWhile (· != ch ',')).length) :
    DirectivePart value i start next ((value.drop start).takeWhile (· != ch ',')) := by
  have hdrop : value.drop start = (value.drop i).dropWhile isSeparator := by
    rw [hstart, ← List.drop_drop, drop_takeWhile_length]
  have hdrop' : value.drop next = (value.drop start).dropWhile (· != ch ',') := by
    rw [hnext, ← List.drop_drop, drop_takeWhile_length]
  have hlen : ((value.drop i).takeWhile isSeparator).length ≤ value.length - i := by
    simpa using (List.takeWhile_prefix isSeparator (l := value.drop i)).length_le
  have hlen' : ((value.drop start).takeWhile (· != ch ',')).length ≤ value.length - start := by
    simpa using (List.takeWhile_prefix (· != ch ',') (l := value.drop start)).length_le
  refine ⟨by omega, ?_, by omega, hnext.symm, ?_, ?_, ?_, ?_, ?_⟩
  · by_cases hskip : start = i
    · rw [hskip] at hnext hstart
      have hforward := directive_forward hi
      omega
    · omega
  · rw [hdrop', List.takeWhile_append_dropWhile]
  · intro hmem
    have := List.mem_takeWhile_imp hmem
    simp at this
  · intro b hb
    have hlast := List.head?_dropWhile_not (· != ch ',') (value.drop start)
    rw [← hdrop', hb] at hlast
    simpa using hlast
  · refine ⟨(value.drop i).takeWhile isSeparator, fun b hb => List.mem_takeWhile_imp hb, ?_⟩
    rw [hdrop, List.takeWhile_append_dropWhile]
  · intro b hb
    have hhead := List.head?_dropWhile_not isSeparator (value.drop i)
    rw [List.head?_takeWhile, Option.mem_filter_iff] at hb
    rw [← hdrop, Option.mem_def.1 hb.1] at hhead
    exact (Bool.or_eq_false_iff.1 hhead).1

/-- A round reads one directive off the value. -/
theorem DirectivePart.parse {value d : List Byte} {i start next : Nat} (h : DirectivePart value i start next d)
    (lt : Lifetimes) : parseCacheControl lt (value.drop i) =
      (parseDirective lt (d.rdropWhile isBlank)).bind fun lt => parseCacheControl lt (value.drop next) := by
  obtain ⟨l, hl, heq⟩ := h.separators
  have htrim : trim d = d.rdropWhile isBlank := by
    cases d with
    | nil => rfl
    | cons b d => rw [trim, List.dropWhile_cons_of_neg (by simpa using h.tight b rfl)]
  rw [heq, parseCacheControl_separators hl, h.text, parseCacheControl_part h.comma h.rest, htrim]

/-- Where the round's scanners stop. -/
structure RoundStops (r : List Byte) (v n i start next stop : Nat) : Prop where
  part : DirectivePart (slice r v n) i start next (slice r (v + start) (next - start))
  start_le : start ≤ stop
  stop_le : stop ≤ next
  trimmed : (slice r (v + start) (next - start)).rdropWhile isBlank = slice r (v + start) (stop - start)

theorem roundStops (h : s + n ≤ r.length) {i : Nat} (hi : i < n) :
    let start := result (scanWhile isSeparator r (s + n) s n i : CacheReading Nat)
    let next := result (scanWhile (· != ch ',') r (s + n) s n start : CacheReading Nat)
    RoundStops r s n i start next (result (trimEndLoop r (s + n) s start next)) := by
  intro start next
  have hlen := length_slice h
  have hstart : start = i + (((slice r s n).drop i).takeWhile isSeparator).length := result_scanWhile h (by omega)
  have hle : start ≤ n := by
    have := (List.takeWhile_prefix isSeparator (l := (slice r s n).drop i)).length_le
    rw [List.length_drop, hlen] at this
    omega
  have hnext : next = start + (((slice r s n).drop start).takeWhile (· != ch ',')).length := result_scanWhile h hle
  have hpart := directivePart (by omega) hstart hnext
  have htext : ((slice r s n).drop start).takeWhile (· != ch ',') = slice r (s + start) (next - start) := by
    have hpre := List.prefix_iff_eq_take.1 (List.takeWhile_prefix (· != ch ',') (l := (slice r s n).drop start))
    have hd : (((slice r s n).drop start).takeWhile (· != ch ',')).length = next - start := by omega
    have hlast := hpart.last
    rw [hd] at hpre
    rw [hpre, slice_drop, slice_take (by omega)]
  rw [htext] at hpart
  have hlast := hpart.last
  have hlength := hpart.length
  have hstop := @result_trimEndLoop r (s + n) s start next (by omega) (by omega)
  have hpre := List.rdropWhile_prefix isBlank (l := slice r (s + start) (next - start))
  have hshort := hpre.length_le
  refine ⟨hpart, by omega, by omega, ?_⟩
  rw [List.prefix_iff_eq_take.1 hpre, slice_take (by omega), hstop]
  congr 1
  omega

theorem result_cacheControlLoop (h : s + n ≤ r.length) {rounds i : Nat} (hi : i ≤ n) (hrounds : n - i < rounds)
    (lt : Lifetimes) :
    result (cacheControlLoop r s n rounds i lt) = parseCacheControl lt ((slice r s n).drop i) := by
  induction rounds generalizing i lt with
  | zero => omega
  | succ rounds ih =>
    rw [cacheControlLoop, result_ite]
    by_cases hlt : i < n
    · rw [if_pos hlt, result_bind, result_bind, result_bind, result_bind, result_ite]
      obtain ⟨hpart, hstart, hstop, htrim⟩ := roundStops h hlt
      generalize result (scanWhile isSeparator r (s + n) s n i : CacheReading Nat) = start at *
      generalize result (scanWhile (· != ch ',') r (s + n) s n start : CacheReading Nat) = next at *
      generalize result (trimEndLoop r (s + n) s start next) = stop at *
      have hforward := hpart.forward
      have hlast := hpart.last
      rw [length_slice h] at hlast
      rw [hpart.parse, htrim]
      by_cases hempty : stop = start
      · rw [if_pos hempty, ih hlast (by omega)]
        simp [hempty, slice, parseDirective]
      · rw [if_neg hempty, result_bind, result_directiveReads (by omega) (by omega)]
        cases parseDirective lt (slice r (s + start) (stop - start)) with
        | none => rfl
        | some lt => exact ih hlast (by omega) lt
    · rw [if_neg hlt, List.drop_of_length_le (by rw [length_slice h]; omega)]
      rfl

/-- What the loop does but for its own marks is in order, and the marks go
forward. -/
structure DirectiveNotes (len i n : Nat) (as : List (Access CacheLoop)) : Prop where
  quiet : ∀ loop, loop ≠ .directives → Quiet len longBound loop as
  advances : Advances .directives i n as

theorem DirectiveNotes.nil {len i : Nat} : DirectiveNotes len i n [] := ⟨fun _ _ => .nil, .quiet (by simp)⟩

theorem DirectiveNotes.append {len i : Nat} {as bs : List (Access CacheLoop)}
    (ha : ∀ loop, Quiet len longBound loop as) (hb : DirectiveNotes len i n bs) : DirectiveNotes len i n (as ++ bs) :=
  ⟨fun loop hloop => (ha loop).append (hb.quiet loop hloop), Advances.append (ha .directives).unmarked hb.advances⟩

theorem DirectiveNotes.round {len i next : Nat} {as : List (Access CacheLoop)} (h : DirectiveNotes len next n as)
    (hlt : i < next) (hi : i < n) : DirectiveNotes len i n ([.mark .directives i] ++ as) :=
  ⟨fun loop hloop => (Quiet.mark hloop.symm).append (h.quiet loop hloop), h.advances.round hlt hi⟩

theorem directiveNotes_cacheControlLoop (h : s + n ≤ r.length) {rounds i : Nat} (hi : i ≤ n) (hrounds : n - i < rounds)
    (lt : Lifetimes) : DirectiveNotes (s + n) i n (notes (cacheControlLoop r s n rounds i lt)) := by
  induction rounds generalizing i lt with
  | zero => omega
  | succ rounds ih =>
    rw [cacheControlLoop, notes_ite]
    by_cases hlt : i < n
    · rw [if_pos hlt, notes_bind, notes_bind, notes_bind, notes_bind, notes_ite]
      obtain ⟨hpart, hstart, hstop, -⟩ := roundStops h hlt
      have hforward := hpart.forward
      have hlast := hpart.last
      rw [length_slice h] at hlast
      refine DirectiveNotes.round (.append (fun _ => (readsBelow_scanWhile (Nat.le_refl _)).quiet (Nat.le_refl _)) <|
        .append (fun _ => (readsBelow_scanWhile (Nat.le_refl _)).quiet (Nat.le_refl _)) <|
        .append (fun _ => (reads_trimEndLoop (by omega)).quiet (Nat.le_refl _)) ?_) hforward hlt
      split
      · exact ih hlast (by omega) lt
      · rw [notes_bind]
        refine .append (fun _ => quiet_directiveReads (by omega) lt) ?_
        split
        · exact .nil
        · exact ih hlast (by omega) _
    · rw [if_neg hlt]
      exact .nil

theorem result_parseCacheControlReads (h : s + n ≤ r.length) (lt : Lifetimes) :
    result (parseCacheControlReads r s n lt) = parseCacheControl lt (slice r s n) :=
  result_cacheControlLoop h (Nat.zero_le n) (by omega) lt

theorem directiveNotes_parseCacheControlReads (h : s + n ≤ r.length) (lt : Lifetimes) :
    DirectiveNotes (s + n) 0 n (notes (parseCacheControlReads r s n lt)) :=
  directiveNotes_cacheControlLoop h (Nat.zero_le n) (by omega) lt

/-! ## Content-Length -/

theorem result_contentLengthLoop (h : s + n ≤ r.length) {limit k v : Nat} (hk : k ≤ n) :
    result (contentLengthLoop r limit s n k v) = contentLengthFrom ((slice r s n).drop k) v := by
  induction hn : n - k generalizing k v with
  | zero =>
    rw [contentLengthLoop, dif_neg (by omega), List.drop_of_length_le (by rw [length_slice h]; omega)]
    rfl
  | succ m ih =>
    have hlen : k < (slice r s n).length := by rw [length_slice h]; omega
    rw [contentLengthLoop, dif_pos (by omega), result_bind, result_ite, result_readAt, getD_slice hlen,
      List.drop_eq_getElem_cons hlen, contentLengthFrom, result_bind, ih (by omega) (by omega)]
    rfl

/-- The value is tested before it grows. -/
theorem quiet_contentLengthLoop {limit k v : Nat} {loop : CacheLoop} (h : s + n ≤ limit) :
    Quiet limit longBound loop (notes (contentLengthLoop r limit s n k v)) := by
  induction hn : n - k generalizing k v with
  | zero =>
    rw [contentLengthLoop, dif_neg (by omega)]
    exact .nil
  | succ m ih =>
    rw [contentLengthLoop, dif_pos (by omega), notes_bind, notes_ite]
    refine ((readsBelow_readAt (by omega)).quiet (Nat.le_refl _)).append ?_
    split
    · exact .nil
    · rename_i hok
      simp only [Bool.or_eq_true, Bool.not_eq_true', decide_eq_true_eq, not_or, Bool.not_eq_false] at hok
      have hdigit := digitVal_le hok.1
      have hlong : longBound = 2 ^ 63 := rfl
      exact (Quiet.value (by omega)).append (ih (by omega))

theorem result_contentLengthReads (h : s + n ≤ r.length) {limit : Nat} (hn : 15 ≤ n) :
    result (contentLengthReads r limit s n) = parseContentLength ((slice r s n).drop 15) := by
  have hlen : (((slice r s n).drop 15).takeWhile isBlank).length ≤ n - 15 := by
    have := (List.takeWhile_prefix isBlank (l := (slice r s n).drop 15)).length_le
    rwa [List.length_drop, length_slice h] at this
  rw [contentLengthReads, result_bind, result_scanWhile h hn, result_ite, result_contentLengthLoop h (by omega),
    parseContentLength, ← List.drop_drop, drop_takeWhile_length]
  have hrest : (((slice r s n).drop 15).dropWhile isBlank).length =
      n - (15 + (((slice r s n).drop 15).takeWhile isBlank).length) := by
    rw [← drop_takeWhile_length, List.length_drop, List.length_drop, length_slice h]
    omega
  cases hvalue : ((slice r s n).drop 15).dropWhile isBlank with
  | nil =>
    rw [hvalue, List.length_nil] at hrest
    rw [if_pos (by omega)]
    rfl
  | cons b digits =>
    rw [hvalue, List.length_cons] at hrest
    rw [if_neg (by omega)]

theorem quiet_contentLengthReads {limit : Nat} {loop : CacheLoop} (h : s + n ≤ limit) :
    Quiet limit longBound loop (notes (contentLengthReads r limit s n)) := by
  rw [contentLengthReads, notes_bind, notes_ite]
  refine ((readsBelow_scanWhile h).quiet (Nat.le_refl _)).append ?_
  split
  · exact .nil
  · exact quiet_contentLengthLoop h

end

end SecureProxy
