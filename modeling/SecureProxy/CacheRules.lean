/-
The rules a cacheable response meets (`cache.h`), over the lines of its header
block, and that `cache_evaluate_response` lets through the responses that meet
them and no others.

Of several Content-Length lines the last alone is compared with the body.
-/
import SecureProxy.CacheControl
import SecureProxy.CacheHeader
import SecureProxy.Lib.Checks

namespace SecureProxy

open Bytes Lines Checks

/-! ## The rules -/

/-- The response begins with `HTTP/1.`, any byte, ` 200` and a space or a line
end. -/
def StatusLine200 (r : List Byte) : Prop :=
  ∃ version stop rest, r = bytes "HTTP/1." ++ version :: bytes " 200" ++ stop :: rest ∧
    stop ∈ [ch ' ', ch '\r', ch '\n']

/-- A line that does not tie the response to one user. -/
structure LineOk (line : List Byte) : Prop where
  cookie : ¬ named "set-cookie:" line
  credentials : ¬ named "authorization:" line ∧ ¬ named "www-authenticate:" line
  pragma : named "pragma:" line → ¬ mentions "no-cache" line
  vary : named "vary:" line → ¬ mentions "*" line ∧ ¬ mentions "cookie" line ∧ ¬ mentions "authorization" line

/-- The directives a line brings. -/
def lineDirectives (line : List Byte) : List (List Byte) :=
  if named "cache-control:" line then directives (line.drop 14) else []

/-- All directives of a header, in order. -/
def givenDirectives (lines : List (List Byte)) : List (List Byte) := lines.flatMap lineDirectives

def Directive.maxAge? : Directive → Option Nat
  | .maxAge n => some n
  | _ => none

def Directive.sMaxage? : Directive → Option Nat
  | .sMaxage n => some n
  | _ => none

/-- The last `s-maxage`, else the last `max-age`, else a minute. -/
def givenLifetime (ds : List Directive) : Nat :=
  (ds.filterMap Directive.sMaxage?).getLast?.getD ((ds.filterMap Directive.maxAge?).getLast?.getD 60)

/-- The Content-Length lines of a header. -/
def lengthLines (lines : List (List Byte)) : List (List Byte) := lines.filter (named "content-length:" ·)

/-- The number a Content-Length line gives. -/
def lengthOf (line : List Byte) : Option Nat := parseContentLength (line.drop 15)

/-- The rules a header meets, the ones on the body's length apart. -/
structure FieldRules (lines : List (List Byte)) (ds : List Directive) : Prop where
  each : ∀ line ∈ lines, LineOk line
  directives : List.Forall₂ Approved (givenDirectives lines) ds
  lifetime : 0 < givenLifetime ds

/-- Every directive is an approved one. -/
theorem FieldRules.approved {lines : List (List Byte)} {ds : List Directive} (h : FieldRules lines ds) :
    ∀ d ∈ givenDirectives lines, ∃ x, Approved d x := by
  obtain ⟨-, hall, -⟩ := h
  generalize givenDirectives lines = given at hall
  induction hall with
  | nil => simp
  | cons hx _ ih => exact List.forall_mem_cons.2 ⟨⟨_, hx⟩, ih⟩

/-- All rules. -/
structure CacheRules (r : List Byte) (raw : List (List Byte)) (body : List Byte) (ds : List Directive) : Prop where
  block : HeaderBlock r raw body
  status : StatusLine200 r
  fields : FieldRules (fieldLines raw) ds
  /-- Every Content-Length is a number, and the last one is that of the body. -/
  lengths : (∀ line ∈ lengthLines (fieldLines raw), (lengthOf line).isSome) ∧
    ∀ line, (lengthLines (fieldLines raw)).getLast? = some line → lengthOf line = some body.length

/-! ## The walk -/

/-- What lines with these directives and lengths add to what has been seen. -/
def HeaderScan.add (h : HeaderScan) (ds : List Directive) (lens : List Nat) (saw : Bool) : HeaderScan :=
  { lifetimes := ds.foldl Lifetimes.note h.lifetimes
    contentLength := lens.getLast?.or h.contentLength
    sawCacheControl := h.sawCacheControl || saw }

theorem HeaderScan.add_none (h : HeaderScan) : h.add [] [] false = h := by simp [HeaderScan.add]

theorem HeaderScan.add_add (h : HeaderScan) (ds ds' : List Directive) (lens lens' : List Nat) (saw saw' : Bool) :
    (h.add ds lens saw).add ds' lens' saw' = h.add (ds ++ ds') (lens ++ lens') (saw || saw') := by
  simp [HeaderScan.add, Option.or_assoc, Bool.or_assoc]

/-- The Content-Length lines, and the numbers they give. -/
def Lengths (lines : List (List Byte)) (lens : List Nat) : Prop :=
  List.Forall₂ (fun line n => lengthOf line = some n) (lengthLines lines) lens

theorem noteCacheControl_iff {line : List Byte} {h h' : HeaderScan} : noteCacheControl line h = .ok h' ↔
    ∃ ds, List.Forall₂ Approved (lineDirectives line) ds ∧ h' = h.add ds [] (decide (named "cache-control:" line)) := by
  unfold noteCacheControl lineDirectives
  have hname := @ciPrefix_named line "cache-control:" (by decide)
  by_cases hcc : named "cache-control:" line
  · rw [if_pos (hname.2 hcc), if_pos hcc]
    constructor
    · intro hok
      split at hok
      · cases hok
      · rename_i lt hlt
        cases hok
        obtain ⟨ds, hds, rfl⟩ := parseCacheControl_iff.1 hlt
        exact ⟨ds, hds, by simp [HeaderScan.add, hcc]⟩
    · intro hall
      obtain ⟨ds, hds, rfl⟩ := hall
      rw [parseCacheControl_iff.2 ⟨ds, hds, rfl⟩]
      simp [HeaderScan.add, hcc]
  · rw [if_neg (fun hc => hcc (hname.1 hc)), if_neg hcc]
    simp only [List.forall₂_nil_left_iff, exists_eq_left, hcc, decide_false, HeaderScan.add_none, Except.ok.injEq]
    exact eq_comm

theorem noteContentLength_iff {line : List Byte} {h h' : HeaderScan} : noteContentLength line h = .ok h' ↔
    ∃ lens, Lengths [line] lens ∧ h' = h.add [] lens false := by
  unfold noteContentLength Lengths lengthLines
  have hname := @ciPrefix_named line "content-length:" (by decide)
  by_cases hcl : named "content-length:" line
  · rw [if_pos (hname.2 hcl), List.filter_cons_of_pos (by simpa using hcl), List.filter_nil]
    constructor
    · intro hok
      split at hok
      · cases hok
      · rename_i n hn
        cases hok
        exact ⟨[n], .cons hn .nil, by simp [HeaderScan.add]⟩
    · intro hall
      obtain ⟨lens, hlens, rfl⟩ := hall
      cases hlens with
      | cons hn hnil =>
        cases hnil
        rw [lengthOf] at hn
        simp [hn, HeaderScan.add]
  · rw [if_neg (fun hc => hcl (hname.1 hc)), List.filter_cons_of_neg (by simpa using hcl), List.filter_nil]
    simp only [List.forall₂_nil_left_iff, exists_eq_left, HeaderScan.add_none, Except.ok.injEq]
    exact eq_comm

theorem noteLine_iff {line : List Byte} {h h' : HeaderScan} :
    (noteCacheControl line h).bind (noteContentLength line) = .ok h' ↔
      ∃ ds lens, List.Forall₂ Approved (lineDirectives line) ds ∧ Lengths [line] lens ∧
        h' = h.add ds lens (decide (named "cache-control:" line)) := by
  have hbind := @bind_ok_iff _ _ _ (noteCacheControl line h) (noteContentLength line) h'
  refine hbind.trans ⟨?_, ?_⟩
  · intro hall
    obtain ⟨h₁, hcc, hcl⟩ := hall
    obtain ⟨ds, hds, rfl⟩ := noteCacheControl_iff.1 hcc
    obtain ⟨lens, hlens, rfl⟩ := noteContentLength_iff.1 hcl
    exact ⟨ds, lens, hds, hlens, by rw [HeaderScan.add_add]; simp⟩
  · intro hall
    obtain ⟨ds, lens, hds, hlens, rfl⟩ := hall
    refine ⟨_, noteCacheControl_iff.2 ⟨ds, hds, rfl⟩, noteContentLength_iff.2 ⟨lens, hlens, ?_⟩⟩
    rw [HeaderScan.add_add]
    simp

/-- The rules for a line, as the walk tests them. -/
theorem lineOk_iff {line : List Byte} : LineOk line ↔
    ¬ ciPrefix line (bytes "set-cookie:") = true ∧
    ¬ (ciPrefix line (bytes "authorization:") || ciPrefix line (bytes "www-authenticate:")) = true ∧
    ¬ (ciPrefix line (bytes "pragma:") && ciContains line (bytes "no-cache")) = true ∧
    ¬ (ciPrefix line (bytes "vary:") && (ciContains line (bytes "*") || ciContains line (bytes "cookie") ||
      ciContains line (bytes "authorization"))) = true := by
  simp only [Bool.or_eq_true, Bool.and_eq_true]
  rw [ciPrefix_named (by decide), ciPrefix_named (by decide), ciPrefix_named (by decide), ciPrefix_named (by decide),
    ciPrefix_named (by decide), ciContains_mentions (by decide), ciContains_mentions (by decide),
    ciContains_mentions (by decide), ciContains_mentions (by decide)]
  constructor
  · intro hl
    exact ⟨hl.cookie, by simpa using hl.credentials, by simpa using hl.pragma, by simpa [and_assoc] using hl.vary⟩
  · intro h
    obtain ⟨h1, h2, h3, h4⟩ := h
    exact ⟨h1, by simpa using h2, by simpa using h3, by simpa [and_assoc] using h4⟩

/-- One line of the walk: it breaks a rule, or adds its directives and its
length. -/
theorem scanHeaderLine_iff {line : List Byte} {h h' : HeaderScan} : scanHeaderLine h line = .ok h' ↔
    LineOk line ∧ ∃ ds lens, List.Forall₂ Approved (lineDirectives line) ds ∧ Lengths [line] lens ∧
      h' = h.add ds lens (decide (named "cache-control:" line)) := by
  rw [← noteLine_iff, lineOk_iff]
  by_cases hempty : line = []
  · subst hempty
    have hscan : scanHeaderLine h [] = (noteCacheControl [] h).bind (noteContentLength []) := rfl
    rw [hscan]
    exact ⟨fun hnote => ⟨by decide, hnote⟩, fun hnote => hnote.2⟩
  · unfold scanHeaderLine
    rw [if_neg (by simpa using hempty), ite_error_ok_iff, ite_error_ok_iff, ite_error_ok_iff, ite_error_ok_iff]
    simp only [and_assoc]

theorem forall₂_append_iff {α β : Type} {R : α → β → Prop} {xs ys : List α} {zs : List β} :
    List.Forall₂ R (xs ++ ys) zs ↔ ∃ zs₁ zs₂, List.Forall₂ R xs zs₁ ∧ List.Forall₂ R ys zs₂ ∧ zs = zs₁ ++ zs₂ := by
  constructor
  · intro h
    induction xs generalizing zs with
    | nil => exact ⟨[], zs, .nil, h, rfl⟩
    | cons x xs ih =>
      cases h with
      | cons hx hxs =>
        obtain ⟨zs₁, zs₂, h₁, h₂, rfl⟩ := ih hxs
        exact ⟨_, zs₂, .cons hx h₁, h₂, rfl⟩
  · intro h'
    obtain ⟨zs₁, zs₂, h₁, h₂, rfl⟩ := h'
    exact List.rel_append h₁ h₂

/-- The whole walk. -/
theorem scanLines_iff {lines : List (List Byte)} {h h' : HeaderScan} : lines.foldlM scanHeaderLine h = .ok h' ↔
    (∀ line ∈ lines, LineOk line) ∧ ∃ ds lens, List.Forall₂ Approved (givenDirectives lines) ds ∧ Lengths lines lens ∧
      h' = h.add ds lens (lines.any fun line => decide (named "cache-control:" line)) := by
  induction lines generalizing h with
  | nil =>
    simp only [List.foldlM_nil, givenDirectives, List.flatMap_nil, Lengths, lengthLines, List.filter_nil,
      List.forall₂_nil_left_iff, List.any_nil]
    constructor
    · intro hok
      cases hok
      exact ⟨by simp, [], [], rfl, rfl, (HeaderScan.add_none _).symm⟩
    · intro hex
      obtain ⟨-, ds, lens, rfl, rfl, rfl⟩ := hex
      rw [h.add_none]
      rfl
  | cons line lines ih =>
    have hlengths : lengthLines (line :: lines) = lengthLines [line] ++ lengthLines lines := List.filter_append [line] lines
    rw [List.foldlM_cons]
    constructor
    · intro hok
      cases hline : scanHeaderLine h line with
      | error e => simp [hline, bind, Except.bind] at hok
      | ok h₁ =>
        obtain ⟨hl, ds, lens, hds, hlens, rfl⟩ := scanHeaderLine_iff.1 hline
        rw [hline] at hok
        obtain ⟨hall, ds', lens', hds', hlens', rfl⟩ := ih.1 hok
        refine ⟨List.forall_mem_cons.2 ⟨hl, hall⟩, ds ++ ds', lens ++ lens', ?_, ?_, h.add_add ..⟩
        · exact forall₂_append_iff.2 ⟨ds, ds', hds, hds', rfl⟩
        · rw [Lengths, hlengths]
          exact forall₂_append_iff.2 ⟨lens, lens', hlens, hlens', rfl⟩
    · intro hex
      obtain ⟨hall, ds, lens, hds, hlens, rfl⟩ := hex
      obtain ⟨hl, hall⟩ := List.forall_mem_cons.1 hall
      obtain ⟨ds₁, ds₂, hds₁, hds₂, rfl⟩ := forall₂_append_iff.1 hds
      rw [Lengths, hlengths] at hlens
      obtain ⟨lens₁, lens₂, hlens₁, hlens₂, rfl⟩ := forall₂_append_iff.1 hlens
      rw [scanHeaderLine_iff.2 ⟨hl, ds₁, lens₁, hds₁, hlens₁, rfl⟩]
      exact ih.2 ⟨hall, ds₂, lens₂, hds₂, hlens₂, (h.add_add ..).symm⟩

/-! ## The verdict -/

theorem foldl_note (ds : List Directive) (lt : Lifetimes) :
    (ds.foldl Lifetimes.note lt).maxAge = (ds.filterMap Directive.maxAge?).getLast?.or lt.maxAge ∧
      (ds.foldl Lifetimes.note lt).sMaxage = (ds.filterMap Directive.sMaxage?).getLast?.or lt.sMaxage := by
  induction ds generalizing lt with
  | nil => simp
  | cons d ds ih =>
    rw [List.foldl_cons, (ih _).1, (ih _).2]
    cases d <;> simp [Lifetimes.note, Directive.maxAge?, Directive.sMaxage?, List.getLast?_cons]

/-- Without a Cache-Control line there is no directive, so the lifetime is that
of the directives given. -/
theorem lifetime_add {lines : List (List Byte)} {ds : List Directive} {lens : List Nat}
    (hds : List.Forall₂ Approved (givenDirectives lines) ds) :
    lifetime (HeaderScan.add {} ds lens (lines.any fun line => decide (named "cache-control:" line))) =
      givenLifetime ds := by
  obtain ⟨hmax, hsmax⟩ := foldl_note ds {}
  simp only [lifetime, HeaderScan.add, Bool.false_or, hmax, hsmax, Option.or_none, givenLifetime, cacheDefaultTtlSeconds]
  by_cases hsaw : lines.any (fun line => decide (named "cache-control:" line)) = true
  · rw [if_pos hsaw]
    cases (ds.filterMap Directive.sMaxage?).getLast? <;> rfl
  · have hnone : givenDirectives lines = [] := by
      refine List.flatMap_eq_nil_iff.2 fun line hline => if_neg fun hn => hsaw ?_
      exact List.any_eq_true.2 ⟨line, hline, by simpa using hn⟩
    rw [hnone, List.forall₂_nil_left_iff] at hds
    rw [if_neg hsaw, hds]
    rfl

theorem judge_iff {bodyLen : Nat} {h : HeaderScan} : (judge bodyLen h).cacheable = true ↔
    (∀ n, h.contentLength = some n → n = bodyLen) ∧ 0 < lifetime h := by
  unfold judge
  split
  · rename_i hlen
    obtain ⟨n, hn, hne⟩ := (Option.any_eq_true _ _).1 hlen
    simp only [Bool.false_eq_true, false_iff, not_and]
    intro hall
    exact absurd (hall n hn) (by simpa using hne)
  · rename_i hlen
    have hall : ∀ n, h.contentLength = some n → n = bodyLen := by
      intro n hn
      rw [hn] at hlen
      simpa using hlen
    split
    · rename_i hzero
      simp [hzero]
    · rename_i hpos
      exact ⟨fun _ => ⟨hall, Nat.pos_of_ne_zero hpos⟩, fun _ => rfl⟩

theorem Lengths.isSome_iff {lines : List (List Byte)} :
    (∃ lens, Lengths lines lens) ↔ ∀ line ∈ lengthLines lines, (lengthOf line).isSome := by
  unfold Lengths
  generalize lengthLines lines = ls
  induction ls with
  | nil => simp
  | cons l ls ih =>
    rw [List.forall_mem_cons, ← ih]
    constructor
    · intro h
      obtain ⟨lens, hlens⟩ := h
      cases hlens with
      | cons hn hrest => exact ⟨by simp [hn], _, hrest⟩
    · intro h
      obtain ⟨hl, lens, hrest⟩ := h
      obtain ⟨n, hn⟩ := Option.isSome_iff_exists.1 hl
      exact ⟨n :: lens, .cons hn hrest⟩

/-- The last number is that of the last line. -/
theorem Lengths.getLast? {lines : List (List Byte)} {lens : List Nat} (h : Lengths lines lens) :
    lens.getLast? = (lengthLines lines).getLast?.bind lengthOf := by
  unfold Lengths at h
  generalize lengthLines lines = ls at h
  induction h with
  | nil => rfl
  | cons hn hrest ih =>
    cases hrest with
    | nil => simp [hn]
    | cons _ _ =>
      rw [List.getLast?_cons_cons, List.getLast?_cons_cons]
      exact ih

theorem Lengths.of_mem {lines : List (List Byte)} {lens : List Nat} (h : Lengths lines lens) {n : Nat} (hn : n ∈ lens) :
    ∃ line ∈ lengthLines lines, lengthOf line = some n := by
  unfold Lengths at h
  generalize lengthLines lines = ls at h ⊢
  induction h with
  | nil => cases hn
  | cons hl _ ih =>
    rcases List.mem_cons.1 hn with rfl | hn
    · exact ⟨_, by simp, hl⟩
    · obtain ⟨line, hline, hnum⟩ := ih hn
      exact ⟨line, List.mem_cons_of_mem _ hline, hnum⟩

theorem Lengths.mem {lines : List (List Byte)} {lens : List Nat} (h : Lengths lines lens) {line : List Byte}
    (hl : line ∈ lengthLines lines) : ∃ n ∈ lens, lengthOf line = some n := by
  unfold Lengths at h
  generalize lengthLines lines = ls at h hl
  induction h with
  | nil => cases hl
  | cons hn _ ih =>
    rcases List.mem_cons.1 hl with rfl | hl
    · exact ⟨_, by simp, hn⟩
    · obtain ⟨n, hmem, hnum⟩ := ih hl
      exact ⟨n, List.mem_cons_of_mem _ hmem, hnum⟩

/-- **The field lines decide**: whether a response with this header and body
may be cached, and for how long. -/
theorem judgeLines_iff {lines : List (List Byte)} {bodyLen : Nat} : (judgeLines lines bodyLen).cacheable = true ↔
    (∃ ds, FieldRules lines ds) ∧ (∀ line ∈ lengthLines lines, (lengthOf line).isSome) ∧
      ∀ line, (lengthLines lines).getLast? = some line → lengthOf line = some bodyLen := by
  unfold judgeLines
  constructor
  · intro hok
    split at hok
    · cases hok
    · rename_i h hscan
      obtain ⟨hall, ds, lens, hds, hlens, rfl⟩ := scanLines_iff.1 hscan
      obtain ⟨hlen, hlife⟩ := judge_iff.1 hok
      rw [lifetime_add hds] at hlife
      have hsome := Lengths.isSome_iff.1 ⟨lens, hlens⟩
      refine ⟨⟨ds, hall, hds, hlife⟩, hsome, fun line hline => ?_⟩
      obtain ⟨n, hn⟩ := Option.isSome_iff_exists.1 (hsome line (List.mem_of_getLast? hline))
      rw [hn, hlen n]
      simp [HeaderScan.add, hlens.getLast?, hline, hn]
  · intro h'
    obtain ⟨⟨ds, hall, hds, hlife⟩, hsome, hlast⟩ := h'
    obtain ⟨lens, hlens⟩ := Lengths.isSome_iff.2 hsome
    rw [scanLines_iff.2 ⟨hall, ds, lens, hds, hlens, rfl⟩]
    refine judge_iff.2 ⟨fun n hn => ?_, by rw [lifetime_add hds]; exact hlife⟩
    simp only [HeaderScan.add, hlens.getLast?, Option.or_none, Option.bind_eq_some_iff] at hn
    obtain ⟨line, hline, hn⟩ := hn
    rw [hlast line hline] at hn
    exact (Option.some.inj hn).symm

theorem judgeLines_ttl {lines : List (List Byte)} {bodyLen : Nat} {ds : List Directive} (h : FieldRules lines ds)
    (hok : (judgeLines lines bodyLen).cacheable = true) :
    (judgeLines lines bodyLen).ttlSeconds = min 3600 (givenLifetime ds) := by
  unfold judgeLines at hok ⊢
  split at hok
  · cases hok
  · rename_i h' hscan
    obtain ⟨-, ds', lens, hds', -, rfl⟩ := scanLines_iff.1 hscan
    obtain rfl : ds' = ds := List.right_unique_forall₂' (fun _ _ _ hx hy => hx.unique hy) hds' h.directives
    obtain ⟨-, hpos⟩ := judge_iff.1 hok
    unfold judge at hok ⊢
    split at hok
    · cases hok
    · rename_i hlen
      rw [if_neg hlen, if_neg (Nat.pos_iff_ne_zero.1 hpos), lifetime_add hds', Nat.min_comm]
      rfl

theorem StatusLine200.statusIs200 {r : List Byte} (h : StatusLine200 r) : statusIs200 r = true := by
  obtain ⟨version, stop, rest, rfl, hstop⟩ := h
  have hstop' : (stop == ch ' ' || stop == ch '\r' || stop == ch '\n') = true := by simpa [or_assoc] using hstop
  simp only [SecureProxy.statusIs200, Bool.and_eq_true]
  exact ⟨⟨⟨⟨by simp [bytes], rfl⟩, rfl⟩, rfl⟩, hstop'⟩

/-- A response of twelve bytes has no header block. -/
theorem statusLine200_of_block {r body : List Byte} {raw : List (List Byte)} (hs : statusIs200 r = true)
    (hb : HeaderBlock r raw body) : StatusLine200 r := by
  have hend : (headerEnd r).isSome := by
    rw [headerEnd_eq (statusIs200_head hs), headerBlock_iff.1 hb]
    rfl
  simp only [statusIs200, Bool.and_eq_true, decide_eq_true_eq, beq_iff_eq] at hs
  obtain ⟨⟨⟨⟨hlen, hhttp⟩, hspace⟩, h200⟩, hstop⟩ := hs
  have hr : r = bytes "HTTP/1." ++ r[7] :: bytes " 200" ++ r.drop 12 := by
    have hget : r[8] = ch ' ' := by
      rw [List.getElem?_eq_getElem (by omega)] at hspace
      exact Option.some.inj hspace
    calc r = r.take 7 ++ r.drop 7 := (List.take_append_drop 7 r).symm
      _ = bytes "HTTP/1." ++ r[7] :: r[8] :: r.drop 9 := by
        rw [hhttp, List.drop_eq_getElem_cons (by omega), List.drop_eq_getElem_cons (by omega)]
      _ = bytes "HTTP/1." ++ r[7] :: ch ' ' :: ((r.drop 9).take 3 ++ (r.drop 9).drop 3) := by
        rw [hget, List.take_append_drop]
      _ = bytes "HTTP/1." ++ r[7] :: bytes " 200" ++ r.drop 12 := by
        rw [h200, List.drop_drop]
        rfl
  cases hrest : r.drop 12 with
  | nil =>
    rw [hrest, List.append_nil] at hr
    generalize r[7] = version at hr
    have hnone : headerEnd r = none := by
      rw [hr]
      by_cases hv : version = ch '\n'
      · rw [hv]
        decide
      · refine headerEnd_bare fun hmem => ?_
        rcases List.mem_append.1 hmem with hmem | hmem
        · exact absurd hmem (by decide)
        · rcases List.mem_cons.1 hmem with heq | hmem
          · exact hv heq.symm
          · exact absurd hmem (by decide)
    rw [hnone] at hend
    cases hend
  | cons stop rest =>
    refine ⟨r[7], stop, rest, hrest ▸ hr, ?_⟩
    have hget : r[12]? = some stop := by
      have := congrArg List.head? hrest
      rwa [List.head?_drop] at this
    rw [hget] at hstop
    simpa [or_assoc] using hstop

/-- **The scanner lets through the responses that meet the rules**, and no
others. -/
theorem cacheEvaluateResponse_iff {r : List Byte} :
    (cacheEvaluateResponse r).cacheable = true ↔ ∃ raw body ds, CacheRules r raw body ds := by
  constructor
  · intro h
    have hs : statusIs200 r = true := by
      rw [← Bool.not_eq_false]
      intro hs
      simp [cacheEvaluateResponse, hs] at h
    obtain ⟨raw, body, hb⟩ : ∃ raw body, HeaderBlock r raw body := by
      by_contra hnone
      rw [evaluate_no_block fun raw body hb => hnone ⟨raw, body, hb⟩] at h
      cases h
    rw [evaluate_block hs hb] at h
    obtain ⟨⟨ds, hds⟩, hlens⟩ := judgeLines_iff.1 h
    exact ⟨raw, body, ds, hb, statusLine200_of_block hs hb, hds, hlens⟩
  · intro h'
    obtain ⟨raw, body, ds, hb, hs, hds, hlens⟩ := h'
    rw [evaluate_block hs.statusIs200 hb]
    exact judgeLines_iff.2 ⟨⟨ds, hds⟩, hlens⟩

/-- **A cacheable response meets the rules of `cache.h`**, and is kept for the
lifetime its directives give, an hour at most. -/
theorem cacheEvaluateResponse_rules {r : List Byte} (h : (cacheEvaluateResponse r).cacheable = true) :
    ∃ raw body ds, HeaderBlock r raw body ∧ StatusLine200 r ∧ (∀ line ∈ fieldLines raw, LineOk line) ∧
      List.Forall₂ Approved (givenDirectives (fieldLines raw)) ds ∧ 0 < givenLifetime ds ∧
      (cacheEvaluateResponse r).ttlSeconds = min 3600 (givenLifetime ds) := by
  obtain ⟨raw, body, ds, hrules⟩ := cacheEvaluateResponse_iff.1 h
  have heval := evaluate_block hrules.status.statusIs200 hrules.block
  rw [heval] at h
  refine ⟨raw, body, ds, hrules.block, hrules.status, hrules.fields.each, hrules.fields.directives,
    hrules.fields.lifetime, ?_⟩
  rw [heval]
  exact judgeLines_ttl hrules.fields h

/-- A bare LF, an empty directive, and a lifetime above the cap. -/
def twoDirectives : List Byte := bytes "HTTP/1.1 200 OK\r\nCache-Control: PUBLIC,, s-maxage=7200\n\r\nhi"

theorem cacheEvaluateResponse_rules_shared : (cacheEvaluateResponse twoDirectives).cacheable = true ∧
    ∃ raw body ds, HeaderBlock twoDirectives raw body ∧ StatusLine200 twoDirectives ∧
      (∀ line ∈ fieldLines raw, LineOk line) ∧ List.Forall₂ Approved (givenDirectives (fieldLines raw)) ds ∧
      0 < givenLifetime ds ∧ (cacheEvaluateResponse twoDirectives).ttlSeconds = min 3600 (givenLifetime ds) := by
  have h : (cacheEvaluateResponse twoDirectives).cacheable = true := by decide +kernel
  exact ⟨h, cacheEvaluateResponse_rules h⟩

/-! ## Content-Length -/

/-- The value of a Content-Length line is `n` in decimal digits. -/
structure Carries (line : List Byte) (n : Nat) : Prop where
  nonempty : trim (line.drop 15) ≠ []
  digits : ∀ b ∈ trim (line.drop 15), isDigit b = true
  value : numVal (trim (line.drop 15)) = n

theorem contentLengthFrom_some {ds : List Byte} {v n : Nat} (h : contentLengthFrom ds v = some n) :
    (∀ b ∈ ds, isDigit b = true) ∧ n = ds.foldl (fun v d => v * 10 + digitVal d) v := by
  induction ds generalizing v with
  | nil => exact ⟨by simp, (Option.some.inj h).symm⟩
  | cons b ds ih =>
    simp only [contentLengthFrom] at h
    split at h
    · cases h
    · rename_i hb
      simp only [Bool.or_eq_true, not_or, Bool.not_eq_true', Bool.not_eq_false] at hb
      obtain ⟨hds, rfl⟩ := ih h
      exact ⟨List.forall_mem_cons.2 ⟨hb.1, hds⟩, rfl⟩

theorem isBlank_of_digit {b : Byte} (h : isDigit b = true) : isBlank b = false := by
  have htab : b ≠ ch '\t' := by
    rintro rfl
    exact absurd h (by decide)
  simp [isBlank, isDigit_ne_space h, htab]

theorem lengthOf_carries {line : List Byte} {n : Nat} (h : lengthOf line = some n) : Carries line n := by
  unfold lengthOf parseContentLength at h
  split at h
  · cases h
  · rename_i digits hne
    obtain ⟨hdigits, rfl⟩ := contentLengthFrom_some h
    -- the digits end the value, so there is no blank to strip after them
    have htrim : trim (line.drop 15) = (line.drop 15).dropWhile isBlank := by
      refine List.rdropWhile_eq_self_iff.2 fun hl => ?_
      simp [isBlank_of_digit (hdigits _ (List.getLast_mem hl))]
    rw [← htrim] at hdigits
    exact ⟨by rw [htrim]; exact hne, hdigits, by rw [htrim]; rfl⟩

theorem Carries.unique {line : List Byte} {m n : Nat} (hm : Carries line m) (hn : Carries line n) : m = n :=
  hm.value.symm.trans hn.value

/-- Several Content-Length lines with different numbers, of which the last is
the length of the body, in a response that meets every other rule. -/
structure ConflictingLengths (r : List Byte) (raw : List (List Byte)) (body : List Byte) : Prop where
  block : HeaderBlock r raw body
  status : StatusLine200 r
  fields : ∃ ds, FieldRules (fieldLines raw) ds
  lengths : ∃ lens, Lengths (fieldLines raw) lens ∧ lens.getLast? = some body.length ∧ ∃ n ∈ lens, n ≠ body.length

theorem mem_lengthLines {lines : List (List Byte)} {line : List Byte} :
    line ∈ lengthLines lines ↔ line ∈ lines ∧ named "content-length:" line := by
  simp [lengthLines]

/-- **Every Content-Length of a cacheable response is that of its body**,
unless an earlier one conflicts with the last. -/
theorem cacheEvaluateResponse_lengths_iff (r : List Byte) :
    ((cacheEvaluateResponse r).cacheable = true → ∀ raw body, HeaderBlock r raw body →
      ∀ line ∈ fieldLines raw, named "content-length:" line → Carries line body.length) ↔
    ∀ raw body, ¬ ConflictingLengths r raw body := by
  constructor
  · rintro h raw body ⟨hb, hs, ⟨ds, hds⟩, lens, hlens, hlast, n, hn, hne⟩
    have hrules : CacheRules r raw body ds := by
      refine ⟨hb, hs, hds, Lengths.isSome_iff.1 ⟨lens, hlens⟩, fun line hline => ?_⟩
      rw [hlens.getLast?, hline] at hlast
      exact hlast
    obtain ⟨line, hline, hnum⟩ := hlens.of_mem hn
    obtain ⟨hmem, hname⟩ := mem_lengthLines.1 hline
    have hcarries := h (cacheEvaluateResponse_iff.2 ⟨raw, body, ds, hrules⟩) raw body hb line hmem hname
    exact hne ((lengthOf_carries hnum).unique hcarries)
  · intro h hok raw body hb line hline hname
    obtain ⟨raw', body', ds, hrules⟩ := cacheEvaluateResponse_iff.1 hok
    obtain ⟨rfl, rfl⟩ := hrules.block.unique hb
    obtain ⟨lens, hlens⟩ := Lengths.isSome_iff.2 hrules.lengths.1
    have hmem := mem_lengthLines.2 ⟨hline, hname⟩
    obtain ⟨n, hn, hnum⟩ := hlens.mem hmem
    obtain ⟨last, hlast⟩ := Option.isSome_iff_exists.1 (List.getLast?_isSome.2 (List.ne_nil_of_mem hmem))
    by_cases hne : n = body'.length
    · exact hne ▸ lengthOf_carries hnum
    · refine absurd ⟨hb, hrules.status, ⟨ds, hrules.fields⟩, lens, hlens, ?_, n, hn, hne⟩ (h raw' body')
      rw [hlens.getLast?, hlast]
      exact hrules.lengths.2 last hlast

/-- Two lengths, of which only the second is that of the body. -/
def twoLengths : List Byte := bytes "HTTP/1.1 200 OK\r\nContent-Length: 100\r\nContent-Length: 2\r\n\r\nhi"

/-- It is cacheable, although its first Content-Length is not that of the body. -/
theorem cacheEvaluateResponse_twoLengths : (cacheEvaluateResponse twoLengths).cacheable = true ∧
    ¬ ((cacheEvaluateResponse twoLengths).cacheable = true → ∀ raw body, HeaderBlock twoLengths raw body →
      ∀ line ∈ fieldLines raw, named "content-length:" line → Carries line body.length) := by
  have hok : (cacheEvaluateResponse twoLengths).cacheable = true := by decide +kernel
  refine ⟨hok, fun h => ?_⟩
  have hb : HeaderBlock twoLengths [bytes "HTTP/1.1 200 OK\r", bytes "Content-Length: 100\r", bytes "Content-Length: 2\r",
      bytes "\r"] (bytes "hi") := headerBlock_iff.2 (by decide +kernel)
  have hcarries := h hok _ _ hb (bytes "Content-Length: 100") (by decide +kernel) (by decide +kernel)
  exact absurd hcarries.value (by decide +kernel)

end SecureProxy
