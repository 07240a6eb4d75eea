/-
A parsed URL written out again, with its port. The parser gives it back, save
where text stands behind the ']' of a bracketed host: without a port such a
host is accepted, and with one it is not.
-/
import SecureProxy.UrlGrammar

namespace SecureProxy

open Bytes

/-! ## The rendering -/

/-- A parsed URL written out with its port. -/
def renderUrl (r : ParsedUrl) : List Byte := bytes "http://" ++ (r.host ++ ch ':' :: decimal r.port) ++ r.path

/-- Where the authority of a line starts with '[', its first ']' is followed by
a ':' or by nothing. -/
def BracketCloses (u : List Byte) : Prop :=
  let auth := (u.drop scheme.length).takeWhile inAuthority
  auth.head? = some (ch '[') → ∀ c, ((auth.dropWhile (· != ch ']')).drop 1).head? = some c → c = ch ':'

theorem isUrlHostByte_toLower : ∀ b, isUrlHostByte b = true → isUrlHostByte (toLower b) = true := forall_byte (by decide +kernel)

theorem toLower_bracket : ∀ b, (toLower b = ch '[' ↔ b = ch '[') ∧ (toLower b = ch ']' ↔ b = ch ']') :=
  forall_byte (by decide +kernel)

theorem isUrlHostByte_plain : ∀ b, isUrlHostByte b = true →
    (32 < b ∧ b ≠ 127 ∧ b ≠ ch '#') ∧ b ≠ ch '/' ∧ b ≠ ch '?' ∧ b ≠ ch '@' := forall_byte (by decide +kernel)

theorem isDigit_plain : ∀ b, isDigit b = true →
    (32 < b ∧ b ≠ 127 ∧ b ≠ ch '#') ∧ b ≠ ch '/' ∧ b ≠ ch '?' ∧ b ≠ ch '@' := forall_byte (by decide +kernel)

theorem not_bracket_map {s : List Byte} : ch ']' ∉ s.map toLower ↔ ch ']' ∉ s := by
  simp [List.mem_map, (toLower_bracket _).2]

theorem dropWhile_bracket {inside back : List Byte} (h : ch ']' ∉ inside) :
    (inside ++ ch ']' :: back).dropWhile (· != ch ']') = ch ']' :: back := by
  rw [List.dropWhile_append_of_pos fun b hb => by simpa using fun hbe : b = ch ']' => h (hbe ▸ hb)]
  exact List.dropWhile_cons_of_neg (by simp)

theorem UrlAuthority.portRange {auth host : List Byte} {port : Nat} (h : UrlAuthority auth host port) :
    1 ≤ port ∧ port ≤ 65535 := by
  obtain ⟨-, rfl⟩ | ⟨-, -, -, -, -, hpos, hle⟩ := h.port
  · decide
  · exact ⟨hpos, hle⟩

theorem UrlAuthority.head {auth host : List Byte} {port : Nat} (h : UrlAuthority auth host port) : auth.head? = host.head? := by
  obtain ⟨rfl, -⟩ | ⟨digits, rfl, -⟩ := h.port
  · rfl
  · cases host with
    | nil => exact absurd rfl h.hostNonempty
    | cons b host => rfl

theorem head_map_bracket {host : List Byte} : (host.map toLower).head? = some (ch '[') ↔ host.head? = some (ch '[') := by
  cases host with
  | nil => rfl
  | cons b host => simpa using (toLower_bracket b).1

theorem decimal_ne_nil (n : Nat) : decimal n ≠ [] := by
  unfold decimal
  split
  · simp
  · rename_i h
    simpa using Nat.digits_ne_nil_iff_ne_zero.2 h

/-- A bracketed host that closes the authority, or comes before its port. -/
def HostCloses (host : List Byte) : Prop := ∃ inside, host = inside ++ [ch ']'] ∧ ch ']' ∉ inside

theorem hostCloses_map {host : List Byte} : HostCloses (host.map toLower) ↔ HostCloses host := by
  constructor
  · intro h
    obtain ⟨inside, heq, hin⟩ := h
    obtain ⟨front, back, rfl, rfl, hback⟩ := List.map_eq_append_iff.1 heq
    obtain ⟨b, rfl, hb⟩ := List.map_eq_singleton_iff.1 hback
    rw [(toLower_bracket b).2] at hb
    exact ⟨front, by rw [hb], not_bracket_map.1 hin⟩
  · intro h
    obtain ⟨inside, rfl, hin⟩ := h
    exact ⟨inside.map toLower, by simp [(toLower_bracket (ch ']')).2.2 rfl], not_bracket_map.2 hin⟩

/-- The first ']' of a bracketed authority closes its host exactly where it is
followed by a ':' or by nothing. -/
theorem UrlAuthority.closes_iff {auth host : List Byte} {port : Nat} (h : UrlAuthority auth host port)
    (hhead : auth.head? = some (ch '[')) :
    (∀ c, ((auth.dropWhile (· != ch ']')).drop 1).head? = some c → c = ch ':') ↔ HostCloses host := by
  obtain ⟨hclose, hbehind⟩ := h.bracket hhead
  have hcolon := not_colon_of_host h.hostBytes
  obtain ⟨hauth, -⟩ | ⟨digits, rfl, -⟩ := h.port
  · subst hauth
    obtain ⟨inside, back, rfl, hin⟩ := List.eq_append_cons_of_mem hclose
    rw [dropWhile_bracket hin, List.drop_one, List.tail_cons]
    constructor
    · intro hnext
      cases back with
      | nil => exact ⟨inside, rfl, hin⟩
      | cons c back =>
        have hc := hnext c rfl
        exact absurd (by simp [hc]) hcolon
    · intro hhost c hc
      obtain ⟨inside', heq, hin'⟩ := hhost
      obtain ⟨-, rfl⟩ := eq_of_first hin hin' heq
      cases hc
  · obtain ⟨inside, rfl, hin⟩ := hbehind digits rfl
    refine iff_of_true ?_ ⟨inside, rfl, hin⟩
    rw [List.append_assoc, List.singleton_append, dropWhile_bracket hin]
    intro c hc
    cases hc
    rfl

/-- The authority written out is one with the same host and port exactly where
a bracketed host is closed. -/
theorem UrlAuthority.render_iff {auth host : List Byte} {port : Nat} (h : UrlAuthority auth host port) :
    UrlAuthority (host.map toLower ++ ch ':' :: decimal port) (host.map toLower) port ↔
      (auth.head? = some (ch '[') → HostCloses host) := by
  have hhead : (host.map toLower ++ ch ':' :: decimal port).head? = some (ch '[') ↔ auth.head? = some (ch '[') := by
    rw [h.head]
    refine Iff.trans ?_ head_map_bracket
    cases host with
    | nil => exact absurd rfl h.hostNonempty
    | cons b host => rfl
  constructor
  · intro hr hbracket
    exact hostCloses_map.1 ((hr.bracket (hhead.2 hbracket)).2 _ rfl)
  · intro hcloses
    refine ⟨by simpa using h.hostNonempty, by simpa using h.hostLen, ?_, .inr ⟨decimal port, rfl, decimal_ne_nil port, ?_, ?_, ?_⟩, ?_⟩
    · intro b hb
      obtain ⟨c, hc, rfl⟩ := List.mem_map.1 hb
      exact isUrlHostByte_toLower c (h.hostBytes c hc)
    · exact fun d hd => isDigit_of_mem_decimal hd
    · exact numVal_decimal port
    · exact h.portRange
    · intro hbracket
      have hmap := hostCloses_map.2 (hcloses (hhead.1 hbracket))
      refine ⟨?_, fun _ _ => hmap⟩
      obtain ⟨inside, heq, -⟩ := hmap
      rw [heq]
      simp

/-! ## The round trip -/

theorem pathOf_facts {rest : List Byte} (hrest : ∀ c, rest.head? = some c → c = ch '/' ∨ c = ch '?')
    (hbytes : ∀ b ∈ rest, 32 < b ∧ b ≠ 127 ∧ b ≠ ch '#') :
    (∃ t, pathOf rest = ch '/' :: t) ∧ ∀ b ∈ pathOf rest, 32 < b ∧ b ≠ 127 ∧ b ≠ ch '#' := by
  have hslash : (32 : Byte) < ch '/' ∧ ch '/' ≠ 127 ∧ ch '/' ≠ ch '#' := by decide
  cases rest with
  | nil => exact ⟨⟨[], rfl⟩, by simpa [pathOf] using hslash⟩
  | cons c rest =>
    simp only [pathOf]
    by_cases hc : c = ch '?'
    · rw [if_pos hc]
      refine ⟨⟨_, rfl⟩, fun b hb => ?_⟩
      rcases List.mem_cons.1 hb with rfl | hb
      · exact hslash
      · exact hbytes b hb
    · rw [if_neg hc]
      obtain rfl | rfl := hrest c rfl
      · exact ⟨⟨_, rfl⟩, hbytes⟩
      · exact absurd rfl hc

/-- The parts of a URL written out. -/
theorem HttpUrl.rendered {u : List Byte} {r : ParsedUrl} (h : HttpUrl u r) :
    UrlTested (renderUrl r) (bytes "http://") (r.host ++ ch ':' :: decimal r.port) r.path ∧ pathOf r.path = r.path := by
  cases h with
  | @mk sch auth rest host port hscheme hlen hbytes hauth hrest hparts =>
    obtain ⟨⟨t, hpath⟩, hplain⟩ := pathOf_facts hrest fun b hb => hbytes b (List.mem_append_right _ hb)
    have hauthority : ∀ b ∈ host.map toLower ++ ch ':' :: decimal port,
        (32 < b ∧ b ≠ 127 ∧ b ≠ ch '#') ∧ b ≠ ch '/' ∧ b ≠ ch '?' ∧ b ≠ ch '@' := by
      intro b hb
      rcases List.mem_append.1 hb with hb | hb
      · obtain ⟨c, hc, rfl⟩ := List.mem_map.1 hb
        exact isUrlHostByte_plain _ (isUrlHostByte_toLower c (hparts.hostBytes c hc))
      · rcases List.mem_cons.1 hb with rfl | hb
        · decide
        · exact isDigit_plain b (isDigit_of_mem_decimal hb)
    refine ⟨⟨rfl, by decide, fun b hb => ?_, fun b hb => (hauthority b hb).2, ?_⟩, ?_⟩
    · rcases List.mem_append.1 hb with hb | hb
      · rcases List.mem_append.1 hb with hb | hb
        · have hsch : ∀ b ∈ bytes "http://", (32 : Byte) < b ∧ b ≠ 127 ∧ b ≠ ch '#' := by decide +kernel
          exact hsch b hb
        · exact (hauthority b hb).1
      · exact hplain b hb
    · intro c hc
      simp only [hpath, List.head?_cons, Option.some.injEq] at hc
      exact .inl hc.symm
    · show pathOf (pathOf rest) = pathOf rest
      rw [hpath]
      rfl

/-- A URL with a colon in its authority has its host before the first one. -/
theorem HttpUrl.authority {u sch host digits rest : List Byte} {r : ParsedUrl} (h : HttpUrl u r)
    (htested : UrlTested u sch (host ++ ch ':' :: digits) rest) (hcolon : ch ':' ∉ host) :
    UrlAuthority (host ++ ch ':' :: digits) host r.port := by
  cases h with
  | @mk sch' auth' rest' host' port' hscheme' hulen' hbytes' hauth' hrest' hparts' =>
    -- both ways to cut the line are the parser's
    have hcut' : ((sch' ++ auth' ++ rest').drop scheme.length).takeWhile inAuthority = auth' :=
      (UrlTested.cut ⟨rfl, hscheme', hbytes', hauth', hrest'⟩).2.1
    obtain rfl := hcut'.symm.trans htested.cut.2.1
    have hcolon' := not_colon_of_host hparts'.hostBytes
    obtain ⟨hwhole, -⟩ | ⟨digits', heq, -⟩ := hparts'.port
    · exact absurd (hwhole ▸ List.mem_append_right _ List.mem_cons_self) hcolon'
    · obtain ⟨rfl, -⟩ := eq_of_first hcolon hcolon' heq
      exact hparts'

/-- **Writing a parsed URL out and parsing it again gives it back, exactly
where the bracket of a bracketed host closes the host**: with text behind the
']', the port that is written out is taken for a part of the host. -/
theorem parseHttpUrl_render {u : List Byte} {r : ParsedUrl} (h : parseHttpUrl u = .ok r)
    (hlen : (renderUrl r).length ≤ maxUrlLen) : parseHttpUrl (renderUrl r) = .ok r ↔ BracketCloses u := by
  have hurl := httpUrl_of_parse h
  have hlower := parsedHost_toLower (parseHttpUrl_urlOk h).hostBytes
  obtain ⟨htested, hpath⟩ := hurl.rendered
  cases hurl with
  | @mk sch auth rest host port hscheme hulen hbytes hauth hrest hparts =>
    have hcut : ((sch ++ auth ++ rest).drop scheme.length).takeWhile inAuthority = auth :=
      (UrlTested.cut ⟨rfl, hscheme, hbytes, hauth, hrest⟩).2.1
    have hcond : BracketCloses (sch ++ auth ++ rest) ↔ (auth.head? = some (ch '[') → HostCloses host) := by
      unfold BracketCloses
      rw [hcut]
      exact forall_congr' fun hhead => hparts.closes_iff hhead
    rw [hcond, ← hparts.render_iff]
    constructor
    · intro hparse
      refine (httpUrl_of_parse hparse).authority htested (not_colon_of_host fun b hb => ?_)
      obtain ⟨c, hc, rfl⟩ := List.mem_map.1 hb
      exact isUrlHostByte_toLower c (hparts.hostBytes c hc)
    · intro hauthority
      have hagain := HttpUrl.mk htested.schemeText hlen htested.plain htested.auth htested.rest hauthority
      rw [hlower, hpath] at hagain
      exact hagain.parse

/-- A URL without a port or a path. -/
theorem parseHttpUrl_render_query :
    let r : ParsedUrl := ⟨bytes "example.com", 80, bytes "/?q"⟩
    parseHttpUrl (bytes "http://Example.com?q") = .ok r ∧ parseHttpUrl (renderUrl r) = .ok r := by
  intro r
  have hparse : parseHttpUrl (bytes "http://Example.com?q") = .ok r := by decide
  exact ⟨hparse, (parseHttpUrl_render hparse (by decide +kernel)).2 fun hhead => absurd hhead (by decide)⟩

/-- Text behind the bracket: accepted without a port, refused with the port
written out. -/
theorem parseHttpUrl_render_bracket :
    let r : ParsedUrl := ⟨bytes "[a]b", 80, bytes "/"⟩
    parseHttpUrl (bytes "http://[a]b/") = .ok r ∧ renderUrl r = bytes "http://[a]b:80/" ∧
      (renderUrl r).length ≤ maxUrlLen ∧ parseHttpUrl (renderUrl r) = .error .invalidHost := by
  decide +kernel

end SecureProxy
