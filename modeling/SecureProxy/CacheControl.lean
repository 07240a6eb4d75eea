/-
Cache-Control: which directives are approved and what they stand for, and that
`parse_cache_control` reads the comma-separated list of them so.
-/
import Mathlib.Data.List.Forall2
import Mathlib.Data.List.Infix
import SecureProxy.CacheEligibility

namespace SecureProxy

open Bytes

/-! ## Names and words, in any case -/

/-- The line begins with a name, in any case. -/
def named (name : String) (line : List Byte) : Prop := bytes name <+: line.map toLower

/-- The line has a word in it, in any case. -/
def mentions (word : String) (line : List Byte) : Prop := bytes word <:+: line.map toLower

instance (name : String) (line : List Byte) : Decidable (named name line) :=
  inferInstanceAs (Decidable (bytes name <+: line.map toLower))

instance (word : String) (line : List Byte) : Decidable (mentions word line) :=
  inferInstanceAs (Decidable (bytes word <:+: line.map toLower))

theorem ciPrefix_iff {s name : List Byte} : ciPrefix s name = true ↔ name.map toLower <+: s.map toLower := by
  simp only [ciPrefix, Bool.and_eq_true, decide_eq_true_eq, beq_iff_eq]
  constructor
  · intro h'
    obtain ⟨-, h⟩ := h'
    rw [← h, List.map_take]
    exact List.take_prefix _ _
  · intro h
    refine ⟨by simpa using h.length_le, ?_⟩
    rw [List.prefix_iff_eq_take.1 h, List.length_map, List.map_take]

/-- The names and words of the source are in lower case. -/
theorem ciPrefix_named {line : List Byte} {name : String} (h : (bytes name).map toLower = bytes name) :
    ciPrefix line (bytes name) = true ↔ named name line := by
  rw [ciPrefix_iff, h]
  rfl

theorem ciContains_mentions {line : List Byte} {word : String} (h : (bytes word).map toLower = bytes word) :
    ciContains line (bytes word) = true ↔ mentions word line := by
  simp only [ciContains, List.any_eq_true, List.mem_tails, ciPrefix_iff, h, mentions, List.infix_iff_prefix_suffix]
  constructor
  · intro h'
    obtain ⟨rest, hsuf, hpre⟩ := h'
    exact ⟨rest.map toLower, hpre, hsuf.map _⟩
  · intro h'
    obtain ⟨t, hpre, hsuf⟩ := h'
    obtain ⟨rest, hrest, rfl⟩ := List.suffix_map_iff.1 hsuf
    exact ⟨rest, hrest, hpre⟩

/-! ## Directives -/

/-- The approved Cache-Control directives. -/
inductive Directive where
  | isPublic
  | maxAge (seconds : Nat)
  | sMaxage (seconds : Nat)
  deriving DecidableEq, Repr

/-- One to nine digits. -/
structure Seconds (num : List Byte) : Prop where
  pos : 0 < num.length
  le : num.length ≤ 9
  digits : ∀ b ∈ num, isDigit b = true

/-- A directive, in any case, and what it stands for. -/
inductive Approved (d : List Byte) : Directive → Prop
  | isPublic : d.map toLower = bytes "public" → Approved d .isPublic
  | maxAge {num : List Byte} : Seconds num → d.map toLower = bytes "max-age=" ++ num → Approved d (.maxAge (numVal num))
  | sMaxage {num : List Byte} : Seconds num → d.map toLower = bytes "s-maxage=" ++ num →
      Approved d (.sMaxage (numVal num))

/-- Without the blanks around it. -/
def trim (s : List Byte) : List Byte := (s.dropWhile isBlank).rdropWhile isBlank

/-- The directives of a Cache-Control value: what stands between its commas.
Nothing but blanks is no directive. -/
def directives (value : List Byte) : List (List Byte) :=
  ((value.splitOn (ch ',')).map trim).filter (· ≠ [])

/-- What a directive adds to the lifetimes seen. -/
def Lifetimes.note (lt : Lifetimes) : Directive → Lifetimes
  | .isPublic => lt
  | .maxAge n => { lt with maxAge := some n }
  | .sMaxage n => { lt with sMaxage := some n }

/-- Only a digit is mapped to a digit. -/
theorem toLower_digit {b : Byte} (h : isDigit (toLower b) = true) : toLower b = b := by
  unfold toLower at h ⊢
  split
  · rename_i hup
    rw [if_pos hup] at h
    simp only [isDigit, isUpper, Bool.and_eq_true, decide_eq_true_eq, UInt8.le_iff_toNat_le, UInt8.toNat_add] at h hup
    simp at h hup
    omega
  · rfl

theorem toLower_of_digit {b : Byte} (h : isDigit b = true) : toLower b = b := by
  unfold toLower
  split
  · rename_i hup
    simp only [isDigit, isUpper, Bool.and_eq_true, decide_eq_true_eq, UInt8.le_iff_toNat_le] at h hup
    simp at h hup
    omega
  · rfl

theorem map_toLower_digits {xs num : List Byte} (h : ∀ b ∈ num, isDigit b = true) : xs.map toLower = num ↔ xs = num := by
  constructor
  · rintro rfl
    have hid : ∀ b ∈ xs, b = toLower b := fun b hb => (toLower_digit (h _ (List.mem_map_of_mem hb))).symm
    exact (List.map_id _).symm.trans (List.map_congr_left hid)
  · rintro rfl
    exact (List.map_congr_left fun b hb => toLower_of_digit (h b hb)).trans (List.map_id _)

theorem parseSeconds_iff {num : List Byte} {n : Nat} : parseSeconds num = some n ↔ Seconds num ∧ n = numVal num := by
  unfold parseSeconds
  constructor
  · intro h
    split at h
    · cases h
    · rename_i hnum
      simp only [Bool.or_eq_true, decide_eq_true_eq, Bool.not_eq_true', not_or, Bool.not_eq_false, List.all_eq_true] at hnum
      exact ⟨⟨by omega, by omega, hnum.2⟩, (Option.some.inj h).symm⟩
  · intro h'
    obtain ⟨h, rfl⟩ := h'
    rw [if_neg]
    have hpos := h.pos
    have hle := h.le
    simp only [Bool.or_eq_true, decide_eq_true_eq, Bool.not_eq_true', not_or, Bool.not_eq_false, List.all_eq_true]
    exact ⟨⟨by omega, by omega⟩, h.digits⟩

/-- A directive with a number: its name, and nothing but digits after it. -/
theorem numbered_iff {d : List Byte} {name : String} {n : Nat} (hname : (bytes name).map toLower = bytes name) :
    (ciPrefix d (bytes name) = true ∧ parseSeconds (d.drop (bytes name).length) = some n) ↔
      ∃ num, Seconds num ∧ d.map toLower = bytes name ++ num ∧ n = numVal num := by
  constructor
  · intro h
    obtain ⟨hpre, hnum⟩ := h
    obtain ⟨hsec, rfl⟩ := parseSeconds_iff.1 hnum
    refine ⟨_, hsec, ?_, rfl⟩
    obtain ⟨rest, hrest⟩ := (ciPrefix_named hname).1 hpre
    have hdrop : (d.drop (bytes name).length).map toLower = rest := by rw [List.map_drop, ← hrest, List.drop_left]
    rw [(map_toLower_digits hsec.digits).2 rfl] at hdrop
    rw [hdrop, hrest]
  · intro h
    obtain ⟨num, hsec, hd, rfl⟩ := h
    have hdrop : (d.drop (bytes name).length).map toLower = num := by rw [List.map_drop, hd, List.drop_left]
    refine ⟨(ciPrefix_named hname).2 ⟨num, hd.symm⟩, parseSeconds_iff.2 ?_⟩
    rw [(map_toLower_digits hsec.digits).1 hdrop]
    exact ⟨hsec, rfl⟩

theorem public_iff {d : List Byte} : (d.length = 6 && ciPrefix d (bytes "public")) = true ↔ d.map toLower = bytes "public" := by
  have hlen : (bytes "public").length = 6 := rfl
  rw [Bool.and_eq_true, decide_eq_true_eq, ciPrefix_named (by decide)]
  constructor
  · intro h'
    obtain ⟨hd, hpre⟩ := h'
    exact (hpre.eq_of_length (by rw [hlen, List.length_map, hd])).symm
  · intro h
    refine ⟨by rw [← hlen, ← h, List.length_map], ?_⟩
    rw [named, h]

theorem parseDirective_approved {lt lt' : Lifetimes} {d : List Byte} (hd : d ≠ []) (h : parseDirective lt d = some lt') :
    ∃ x, Approved d x ∧ lt' = lt.note x := by
  unfold parseDirective at h
  split at h
  · rename_i hempty
    exact absurd (List.isEmpty_iff.1 hempty) hd
  · split at h
    · rename_i hpub
      exact ⟨.isPublic, .isPublic (public_iff.1 hpub), (Option.some.inj h).symm⟩
    · split at h
      · rename_i hmax
        obtain ⟨n, hn, rfl⟩ := Option.map_eq_some_iff.1 h
        obtain ⟨num, hsec, hnum, rfl⟩ := (@numbered_iff d "max-age=" n (by decide)).1 ⟨hmax, hn⟩
        exact ⟨_, .maxAge hsec hnum, rfl⟩
      · split at h
        · rename_i hsmax
          obtain ⟨n, hn, rfl⟩ := Option.map_eq_some_iff.1 h
          obtain ⟨num, hsec, hnum, rfl⟩ := (@numbered_iff d "s-maxage=" n (by decide)).1 ⟨hsmax, hn⟩
          exact ⟨_, .sMaxage hsec hnum, rfl⟩
        · cases h

theorem not_ciPrefix_of_head {d : List Byte} {name : String} {b c : Byte} (hname : (bytes name).map toLower = bytes name)
    (hc : (bytes name).head? = some c) (hd : (d.map toLower).head? = some b) (hne : c ≠ b) :
    ¬ ciPrefix d (bytes name) = true := by
  intro hpre
  obtain ⟨rest, hrest⟩ := (ciPrefix_named hname).1 hpre
  rw [← hrest, List.head?_append, hc] at hd
  exact hne (Option.some.inj hd)

/-- The directives differ in their first byte, so the tests before the right
one fail. -/
theorem Approved.parseDirective {lt : Lifetimes} {d : List Byte} {x : Directive} (h : Approved d x) :
    parseDirective lt d = some (lt.note x) := by
  have hempty : ∀ {b : Byte}, (d.map toLower).head? = some b → ¬ d.isEmpty = true := by
    intro b hb hd
    rw [List.isEmpty_iff.1 hd] at hb
    cases hb
  have hpublic : ∀ {b : Byte}, (d.map toLower).head? = some b → ch 'p' ≠ b →
      ¬ (d.length = 6 && ciPrefix d (bytes "public")) = true := by
    intro b hb hne hpub
    exact not_ciPrefix_of_head (by decide) rfl hb hne (Bool.and_eq_true_iff.1 hpub).2
  unfold SecureProxy.parseDirective
  cases h with
  | isPublic hd =>
    have hhead : (d.map toLower).head? = some (ch 'p') := by
      rw [hd]
      rfl
    rw [if_neg (hempty hhead), if_pos (public_iff.2 hd)]
    rfl
  | maxAge hsec hd =>
    have hhead : (d.map toLower).head? = some (ch 'm') := by
      rw [hd]
      rfl
    obtain ⟨hpre, hnum⟩ := (numbered_iff (by decide)).2 ⟨_, hsec, hd, rfl⟩
    rw [if_neg (hempty hhead), if_neg (hpublic hhead (by decide)), if_pos hpre]
    exact Option.map_eq_some_iff.2 ⟨_, hnum, rfl⟩
  | sMaxage hsec hd =>
    have hhead : (d.map toLower).head? = some (ch 's') := by
      rw [hd]
      rfl
    obtain ⟨hpre, hnum⟩ := (numbered_iff (by decide)).2 ⟨_, hsec, hd, rfl⟩
    rw [if_neg (hempty hhead), if_neg (hpublic hhead (by decide)),
      if_neg (not_ciPrefix_of_head (by decide) rfl hhead (by decide)), if_pos hpre]
    exact Option.map_eq_some_iff.2 ⟨_, hnum, rfl⟩

/-- A directive is understood as the approved one it is, or not at all. -/
theorem parseDirective_iff {lt lt' : Lifetimes} {d : List Byte} (hd : d ≠ []) :
    parseDirective lt d = some lt' ↔ ∃ x, Approved d x ∧ lt' = lt.note x := by
  constructor
  · exact parseDirective_approved hd
  · intro h
    obtain ⟨x, hx, rfl⟩ := h
    exact hx.parseDirective

/-- The parts between the commas, but for the empty ones. -/
theorem splitParts_directives (s part : List Byte) :
    ((splitParts (ch ',') s part).map trim).filter (· ≠ []) =
      (((s.splitOn (ch ',')).modifyHead (part ++ ·)).map trim).filter (· ≠ []) := by
  induction s generalizing part with
  | nil =>
    cases part with
    | nil => simp [splitParts, trim]
    | cons b part => simp [splitParts]
  | cons b s ih =>
    rw [splitParts, List.splitOn_cons_eq_if_modifyHead]
    by_cases hb : b = ch ','
    · have hnil : (s.splitOn (ch ',')).modifyHead (([] : List Byte) ++ ·) = s.splitOn (ch ',') := by
        cases s.splitOn (ch ',') <;> rfl
      simp only [hb, if_true, beq_self_eq_true, List.map_cons, List.modifyHead_cons, List.append_nil, List.filter_cons, ih,
        hnil]
    · have hbeq : (b == ch ',') = false := by simpa using hb
      rw [if_neg hb, hbeq, if_neg Bool.false_ne_true, ih, List.modifyHead_modifyHead]
      congr 3
      funext x
      simp

/-- `parse_cache_control` takes the directives one by one. -/
theorem parseCacheControl_iff {lt lt' : Lifetimes} {value : List Byte} : parseCacheControl lt value = some lt' ↔
    ∃ ds, List.Forall₂ Approved (directives value) ds ∧ lt' = ds.foldl Lifetimes.note lt := by
  have hdirectives : directives value = ((splitParts (ch ',') value []).map trim).filter (· ≠ []) := by
    rw [splitParts_directives]
    have hnil : (value.splitOn (ch ',')).modifyHead (([] : List Byte) ++ ·) = value.splitOn (ch ',') := by
      cases value.splitOn (ch ',') <;> rfl
    rw [hnil]
    rfl
  rw [hdirectives, parseCacheControl]
  generalize splitParts (ch ',') value [] = parts
  induction parts generalizing lt with
  | nil => simp [eq_comm]
  | cons part parts ih =>
    rw [List.foldlM_cons]
    show (parseDirective lt (trim part) >>= _) = some lt' ↔ _
    by_cases hp : trim part = []
    · have hskip : parseDirective lt (trim part) = some lt := by simp [parseDirective, hp]
      rw [hskip, Option.bind_eq_bind, Option.bind_some, List.map_cons, List.filter_cons_of_neg (by simpa using hp)]
      exact ih
    · rw [Option.bind_eq_bind, Option.bind_eq_some_iff, List.map_cons, List.filter_cons_of_pos (by simpa using hp)]
      constructor
      · intro h
        obtain ⟨lt₁, hpart, hrest⟩ := h
        obtain ⟨x, hx, rfl⟩ := (parseDirective_iff hp).1 hpart
        obtain ⟨ds, hds, rfl⟩ := ih.1 hrest
        exact ⟨x :: ds, .cons hx hds, rfl⟩
      · intro h
        obtain ⟨ds, hds, rfl⟩ := h
        cases hds with
        | cons hx hds => exact ⟨_, (parseDirective_iff hp).2 ⟨_, hx, rfl⟩, ih.2 ⟨_, hds, rfl⟩⟩

/-- A directive stands for one thing. -/
theorem Approved.unique {d : List Byte} {x y : Directive} (hx : Approved d x) (hy : Approved d y) : x = y := by
  have hd : d ≠ [] := by
    rintro rfl
    cases hx with
    | isPublic h => exact absurd h (by decide)
    | maxAge _ h => exact absurd (congrArg List.length h) (by simp [bytes])
    | sMaxage _ h => exact absurd (congrArg List.length h) (by simp [bytes])
  have hx' := (@parseDirective_iff {} _ d hd).2 ⟨x, hx, rfl⟩
  rw [(parseDirective_iff hd).2 ⟨y, hy, rfl⟩] at hx'
  cases x <;> cases y <;> simp_all [Lifetimes.note]

end SecureProxy
