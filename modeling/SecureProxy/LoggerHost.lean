/-
What the log shows of a host. `logger_sanitize_host` is documented to keep the
host part of whatever it is handed, and it does: except that it takes the first
"://" for the end of a scheme wherever it stands, also behind the host, in a
path, a query or a fragment.
-/
import SecureProxy.Logger

namespace SecureProxy

open Bytes

/-! ## The documented host -/

/-- The scheme a text starts with, with its "://". There is none behind a '/',
'?' or '#'. -/
def leadingScheme (s : List Byte) : List Byte :=
  match findScheme s with
  | some (pre, _) => if pre.any isDelimiter then [] else pre ++ bytes "://"
  | none => []

def schemeless (s : List Byte) : List Byte := s.drop (leadingScheme s).length

def authorityText (s : List Byte) : List Byte := (schemeless s).takeWhile fun c => !isDelimiter c

/-- The path, the query and the fragment. -/
def afterAuthority (s : List Byte) : List Byte := (schemeless s).dropWhile fun c => !isDelimiter c

/-- The authority less everything up to its last '@'. -/
def documentedHost (s : List Byte) : List Byte := (authorityText s).rtakeWhile (· != ch '@')

def isLogHostByte (c : Byte) : Bool := isLower c || isDigit c || (bytes "._:[]-").contains c

/-- Lowercase, and an underscore for what is no host byte. -/
def documentedByte (c : Byte) : Byte := if isLogHostByte (toLower c) then toLower c else ch '_'

def shownHost (host : List Byte) : List Byte := if host.isEmpty then bytes "-" else host.map documentedByte

/-- The text the header file promises in a buffer of `n` bytes. -/
def documentedOutput (s : List Byte) (n : Nat) : Option (List Byte) :=
  if n = 0 then none else some ((shownHost (documentedHost s)).take (n - 1))

/-! ## The scheme -/

theorem findScheme_some {s pre post : List Byte} (h : findScheme s = some (pre, post)) : s = pre ++ bytes "://" ++ post := by
  induction s generalizing pre post with
  | nil => cases h
  | cons b s ih =>
    unfold findScheme at h
    split at h
    · rename_i hpre
      cases h
      obtain ⟨rest, hrest⟩ := List.isPrefixOf_iff_prefix.1 hpre
      rw [← hrest]
      rfl
    · obtain ⟨⟨pre', post'⟩, hfind, hpair⟩ := Option.map_eq_some_iff.1 h
      cases hpair
      rw [ih hfind]
      rfl

/-- A "://" with no slash before it is the first. -/
theorem findScheme_append {x : List Byte} (h : ch '/' ∉ x) (y : List Byte) :
    findScheme (x ++ bytes "://" ++ y) = some (x, y) := by
  induction x with
  | nil => rfl
  | cons b x ih =>
    have hx : ch '/' ∉ x := fun hm => h (List.mem_cons_of_mem _ hm)
    have hno : (bytes "://").isPrefixOf (b :: (x ++ bytes "://" ++ y)) = false := by
      rw [Bool.eq_false_iff]
      intro hpre
      obtain ⟨rest, hrest⟩ := List.isPrefixOf_iff_prefix.1 hpre
      cases x with
      | nil =>
        have := (List.cons.inj (List.cons.inj hrest).2).1
        revert this
        decide
      | cons c x =>
        have := (List.cons.inj (List.cons.inj hrest).2).1
        exact hx (this ▸ List.mem_cons_self)
    rw [List.cons_append, List.cons_append, findScheme, hno, ih hx]
    rfl

theorem findScheme_isSome {s : List Byte} : (findScheme s).isSome = true ↔ bytes "://" <:+: s := by
  induction s with
  | nil => simp [findScheme, bytes]
  | cons b s ih =>
    rw [List.infix_cons_iff, ← ih, findScheme, ← List.isPrefixOf_iff_prefix]
    split
    · rename_i h
      simp [h]
    · rename_i h
      simp [h]

/-- The first "://" stands behind a '/', a '?' or a '#'. -/
def lateScheme (s : List Byte) : Bool := (findScheme s).any fun x => x.1.any isDelimiter

theorem dropScheme_eq {s : List Byte} (h : lateScheme s = false) : dropScheme s = schemeless s := by
  unfold lateScheme at h
  unfold dropScheme schemeless leadingScheme
  cases hfind : findScheme s with
  | none => rfl
  | some x =>
    obtain ⟨pre, post⟩ := x
    rw [hfind, Option.any_some] at h
    simp only at h
    have hs := findScheme_some hfind
    simp only [h, Bool.false_eq_true, if_false]
    rw [hs, List.drop_left]

theorem leadingScheme_cases (s : List Byte) :
    leadingScheme s = [] ∨ ∃ x, leadingScheme s = x ++ bytes "://" ∧ x.any isDelimiter = false ∧ leadingScheme s <+: s := by
  unfold leadingScheme
  cases hfind : findScheme s with
  | none => exact .inl rfl
  | some y =>
    obtain ⟨pre, post⟩ := y
    simp only
    cases hany : pre.any isDelimiter with
    | true => exact .inl (if_pos rfl)
    | false => exact .inr ⟨pre, if_neg (by simp), hany, ⟨post, by simp [findScheme_some hfind]⟩⟩

theorem parts_eq (s : List Byte) : leadingScheme s ++ authorityText s ++ afterAuthority s = s := by
  have hprefix : leadingScheme s <+: s := by
    rcases leadingScheme_cases s with h | ⟨x, -, -, h⟩
    · rw [h]
      exact List.nil_prefix
    · exact h
  rw [authorityText, afterAuthority, List.append_assoc, List.takeWhile_append_dropWhile]
  exact (List.prefix_append_drop hprefix).symm

/-! ## The credentials -/

theorem credentialsEnd_drop (cs : List Byte) {done : List Byte} {start : Nat} (hle : start ≤ done.length)
    (h : done.drop start = done.rtakeWhile (· != ch '@')) :
    (done ++ cs).drop (credentialsEnd cs done.length start) = (done ++ cs).rtakeWhile (· != ch '@') := by
  induction cs generalizing done start with
  | nil => simpa [credentialsEnd] using h
  | cons c cs ih =>
    have hlen : (done ++ [c]).length = done.length + 1 := by simp
    have happ : done ++ c :: cs = done ++ [c] ++ cs := by simp
    unfold credentialsEnd
    rw [happ, ← hlen]
    by_cases hc : c = ch '@'
    · rw [if_pos hc, hlen]
      refine hlen ▸ ih (by omega) ?_
      rw [List.rtakeWhile_concat_neg _ _ _ (by simp [hc]), List.drop_length]
    · rw [if_neg hc]
      refine ih (by omega) ?_
      rw [List.rtakeWhile_concat_pos _ _ _ (by simp [hc]), List.drop_append_of_le_length hle, h]

/-- The loop for the last '@' finds it. -/
theorem drop_credentialsEnd (auth : List Byte) :
    auth.drop (credentialsEnd auth 0 0) = auth.rtakeWhile (· != ch '@') :=
  @credentialsEnd_drop auth [] 0 (Nat.le_refl 0) rfl

/-! ## What is shown -/

theorem cleanHostByte_eq : ∀ c, cleanHostByte c = documentedByte c :=
  forall_byte (by decide +kernel)

/-- The host in a text that starts with an authority. -/
def hostIn (p : List Byte) : List Byte := (p.takeWhile fun c => !isDelimiter c).rtakeWhile (· != ch '@')

/-- What `logger_sanitize_host` shows: the host behind the first "://", as much
of it as there is room for. -/
theorem loggerSanitizeHost_eq (s : List Byte) (n : Nat) : loggerSanitizeHost (some s) n =
    if n = 0 then none else some ((shownHost (hostIn (dropScheme s))).take (n - 1)) := by
  unfold loggerSanitizeHost
  by_cases hn : n = 0
  · rw [if_pos hn, if_pos hn]
  · rw [if_neg hn, if_neg hn]
    simp only [drop_credentialsEnd, snprintf, Option.some.injEq]
    have hhost : ((dropScheme s).takeWhile fun c => !isDelimiter c).rtakeWhile (· != ch '@') = hostIn (dropScheme s) := rfl
    have hclean : (cleanHostByte : Byte → Byte) = documentedByte := funext cleanHostByte_eq
    rw [hhost, hclean, shownHost]
    by_cases hempty : (hostIn (dropScheme s)).isEmpty = true
    · have hnil : hostIn (dropScheme s) = [] := by simpa using hempty
      simp [hnil]
    · rw [if_neg hempty, List.map_take]
      by_cases hone : n - 1 = 0
      · simp [hone]
      · have hne : hostIn (dropScheme s) ≠ [] := by simpa using hempty
        rw [if_neg (by simp [hne, hone])]

theorem loggerSanitizeHost_of_not_late {s : List Byte} (h : lateScheme s = false) (n : Nat) :
    loggerSanitizeHost (some s) n = documentedOutput s n := by
  rw [loggerSanitizeHost_eq, dropScheme_eq h]
  rfl

/-! ## What reaches the log -/

/-- The path, the query and the fragment of `s` are kept out of the log by a
scheme in front of the host, or hold no "://" of their own. -/
def TailHidden (s : List Byte) : Prop := leadingScheme s ≠ [] ∨ ¬ bytes "://" <:+: afterAuthority s

theorem authorityText_delimiter (s : List Byte) : (authorityText s).any isDelimiter = false := by
  rw [List.any_eq_false]
  intro c hc
  have := List.mem_takeWhile_imp hc
  simpa using this

theorem TailHidden.not_late {s a : List Byte} (h : TailHidden s) (ha : a.any isDelimiter = false) :
    lateScheme (leadingScheme s ++ a ++ afterAuthority s) = false := by
  rcases leadingScheme_cases s with hnil | ⟨x, hx, hxd, -⟩
  · have hno : ¬ bytes "://" <:+: afterAuthority s := h.resolve_left (absurd hnil)
    rw [hnil, List.nil_append, Bool.eq_false_iff]
    intro hlate
    obtain ⟨⟨pre, post⟩, hfind, hdelim⟩ := (Option.any_eq_true _ _).1 hlate
    have hs := findScheme_some hfind
    rw [List.append_assoc] at hs
    -- the delimiter before the "://" is not in `a`, so the "://" is not either
    rcases List.append_eq_append_iff.1 hs with ⟨c, rfl, htail⟩ | ⟨c, rfl, -⟩
    · exact hno ⟨c, post, by rw [htail, List.append_assoc]⟩
    · rw [List.any_append, Bool.or_eq_false_iff] at ha
      simp only [ha.1] at hdelim
      cases hdelim
  · have hslash : ch '/' ∉ x := fun hm => by
      have := List.any_eq_false.1 hxd _ hm
      simp [isDelimiter] at this
    rw [hx, List.append_assoc, lateScheme, findScheme_append hslash]
    exact hxd

theorem afterAuthority_head {s : List Byte} {c : Byte} (h : (afterAuthority s).head? = some c) : isDelimiter c = true := by
  have := List.head?_dropWhile_not (fun c => !isDelimiter c) (schemeless s)
  unfold afterAuthority at h
  rw [h] at this
  simpa using this

/-- Behind a host of one letter, a "://" of the tail is taken for a scheme. -/
theorem loggerSanitizeHost_letter {t pre post : List Byte} (hfind : findScheme t = some (pre, post))
    (hhead : ∀ c, t.head? = some c → isDelimiter c = true) {b : Byte} (hb : b = ch 'a' ∨ b = ch 'b') (n : Nat) :
    loggerSanitizeHost (some (b :: t)) (n + 1) = some ((shownHost (hostIn post)).take n) ∧
      documentedOutput (b :: t) (n + 1) = some ([b].take n) := by
  have hcolon : (bytes "://").isPrefixOf (b :: t) = false := by
    rcases hb with rfl | rfl <;> rfl
  have hcons : findScheme (b :: t) = some (b :: pre, post) := by
    rw [findScheme, hcolon, hfind]
    rfl
  have ht := findScheme_some hfind
  obtain ⟨d, rest, rfl⟩ : ∃ d rest, t = d :: rest := by
    cases t with
    | nil => cases hfind
    | cons d rest => exact ⟨d, rest, rfl⟩
  have hd := hhead d rfl
  have hlate : (b :: pre).any isDelimiter = true := by
    cases pre with
    | nil =>
      have := (List.cons.inj ht).1
      rw [this] at hd
      cases hd
    | cons c pre =>
      have := (List.cons.inj ht).1
      simp [← this, hd]
  refine ⟨?_, ?_⟩
  · rw [loggerSanitizeHost_eq, dropScheme, hcons]
    rfl
  · have hscheme : schemeless (b :: d :: rest) = b :: d :: rest := by
      unfold schemeless leadingScheme
      rw [hcons]
      simp only [hlate, if_true, List.length_nil, List.drop_zero]
    have hauth : (b :: d :: rest).takeWhile (fun c => !isDelimiter c) = [b] := by
      rw [List.takeWhile_cons_of_pos (by rcases hb with rfl | rfl <;> rfl), List.takeWhile_cons_of_neg (by simp [hd])]
    have hhost : documentedHost (b :: d :: rest) = [b] := by
      rw [documentedHost, authorityText, hscheme, hauth]
      rcases hb with rfl | rfl <;> rfl
    rw [documentedOutput, hhost]
    rcases hb with rfl | rfl <;> rfl

/-- **What follows the host stays out of the log exactly where it holds no
"://", or a scheme stands in front of the host**: then the log shows the
documented host, whatever it is, and two texts with one host are shown alike. -/
theorem loggerSanitizeHost_documented (s : List Byte) :
    ((∀ a n, a.any isDelimiter = false → loggerSanitizeHost (some (leadingScheme s ++ a ++ afterAuthority s)) n =
        documentedOutput (leadingScheme s ++ a ++ afterAuthority s) n) ↔ TailHidden s) ∧
      (TailHidden s → ∀ n, loggerSanitizeHost (some s) n = documentedOutput s n) ∧
      ∀ t, TailHidden s → TailHidden t → documentedHost s = documentedHost t →
        ∀ n, loggerSanitizeHost (some s) n = loggerSanitizeHost (some t) n := by
  have hshown : ∀ {s : List Byte}, TailHidden s → ∀ n, loggerSanitizeHost (some s) n = documentedOutput s n := by
    intro s hs n
    have hlate := hs.not_late (authorityText_delimiter s)
    rw [parts_eq] at hlate
    exact loggerSanitizeHost_of_not_late hlate n
  refine ⟨⟨fun h => ?_, fun h a n ha => loggerSanitizeHost_of_not_late (h.not_late ha) n⟩, hshown, ?_⟩
  · by_contra hno
    obtain ⟨hscheme, hinfix⟩ := not_or.1 hno
    rw [not_not] at hscheme hinfix
    obtain ⟨⟨pre, post⟩, hfind⟩ := Option.isSome_iff_exists.1 (findScheme_isSome.2 hinfix)
    -- one of two hosts is not the one behind that "://"
    have hhost : ∀ b, b = ch 'a' ∨ b = ch 'b' → (shownHost (hostIn post)).take 1 = [b] := by
      intro b hb
      obtain ⟨hcode, hdoc⟩ := loggerSanitizeHost_letter hfind (fun c hc => afterAuthority_head hc) hb 1
      have hone : [b].any isDelimiter = false := by rcases hb with rfl | rfl <;> rfl
      have := h [b] 2 hone
      rw [hscheme, List.nil_append, List.singleton_append, hcode, hdoc] at this
      exact Option.some.inj this
    have hab := (hhost _ (.inl rfl)).symm.trans (hhost _ (.inr rfl))
    revert hab
    decide
  · intro t hs ht hhost n
    rw [hshown hs, hshown ht, documentedOutput, documentedOutput, hhost]

/-- A link in the query of a text without a scheme: the log shows the host of
the link. -/
theorem loggerSanitizeHost_late :
    let s := bytes "example.com/?u=http://secret.example/x"
    loggerSanitizeHost (some s) logHostMax = some (bytes "secret.example") ∧
      documentedOutput s logHostMax = some (bytes "example.com") ∧
      documentedHost s = documentedHost (bytes "example.com/") ∧
      loggerSanitizeHost (some (bytes "example.com/")) logHostMax = some (bytes "example.com") := by
  decide +kernel

end SecureProxy
