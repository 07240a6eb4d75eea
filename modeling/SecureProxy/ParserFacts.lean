/-
What the parsers hand on: a host of 1 to 255 lowercase host bytes, a port in
range, a path that starts with '/' and has no blank in it. Everything behind
the parser (policy, reputation, cache key, origin request) rests on these.
-/
import SecureProxy.Parser

namespace SecureProxy

open Bytes Checks

/-- A byte of a host a parser returned: lowercase, a host byte or a bracket. -/
def isParsedHostByte (b : Byte) : Bool :=
  (isHostByte b || b == ch '[' || b == ch ']') && toLower b == b

/-- `h` is a host `parse_http_url` or `parse_connect_request` can return. -/
def ParserHost (h : List Byte) : Prop :=
  (∃ u r, parseHttpUrl u = .ok r ∧ r.host = h) ∨ ∃ l r, parseConnectRequest l = .ok r ∧ r.host = h

theorem isParsedHostByte_toLower {b : Byte} :
    isHostByte b || b == ch '[' || b == ch ']' → isParsedHostByte (toLower b) :=
  forall_byte (P := fun b => isHostByte b || b == ch '[' || b == ch ']' → isParsedHostByte (toLower b))
    (by decide +kernel) b

/-- No delimiter of a URL, a cache key or a header line is a host byte. -/
theorem isParsedHostByte_not_delim {b : Byte} (h : isParsedHostByte b) :
    b ≠ ch ':' ∧ b ≠ ch ' ' ∧ b ≠ ch '\r' ∧ b ≠ ch '\n' ∧ b ≠ 0 :=
  forall_byte (P := fun b => isParsedHostByte b →
    b ≠ ch ':' ∧ b ≠ ch ' ' ∧ b ≠ ch '\r' ∧ b ≠ ch '\n' ∧ b ≠ 0) (by decide +kernel) b h

/-- A parsed host has been lowercased. -/
theorem parsedHost_toLower {host : List Byte} (h : ∀ b ∈ host, isParsedHostByte b) : host.map toLower = host := by
  calc host.map toLower = host.map id := List.map_congr_left fun b hb => by
        have := h b hb
        simp only [isParsedHostByte, Bool.and_eq_true, beq_iff_eq] at this
        exact this.2
    _ = host := List.map_id host

/-! ## `parse_http_url` -/

/-- The facts `parse_http_url` establishes about what it returns. -/
structure UrlOk (r : ParsedUrl) : Prop where
  hostNonempty : r.host ≠ []
  hostLen : r.host.length < maxHostLen
  hostBytes : ∀ b ∈ r.host, isParsedHostByte b
  portPos : 0 < r.port
  portLe : r.port ≤ 65535
  pathHead : r.path.head? = some (ch '/')
  pathLen : r.path.length < maxPathLen
  pathBytes : ∀ b ∈ r.path, 32 < b ∧ b ≠ 127

theorem hostOk_of_map {host : List Byte} (hne : host ≠ []) (hlen : host.length < maxHostLen)
    (hb : ∀ b ∈ host, isHostByte b || b == ch '[' || b == ch ']') :
    host.map toLower ≠ [] ∧ (host.map toLower).length < maxHostLen ∧
      ∀ b ∈ host.map toLower, isParsedHostByte b := by
  refine ⟨by simpa using hne, by simpa using hlen, fun b hm => ?_⟩
  obtain ⟨c, hc, rfl⟩ := List.mem_map.1 hm
  exact isParsedHostByte_toLower (hb c hc)

theorem parsePort_ok {s : List Byte} {n : Nat} (h : parsePort s = .ok n) : 0 < n ∧ n ≤ 65535 := by
  simp only [parsePort, bind_ok_iff, check_ok_iff, exists_const, pure_ok_iff] at h
  obtain ⟨-, v, -, hr, rfl⟩ := h
  simp only [Bool.or_eq_false_iff, beq_eq_false_iff_ne, decide_eq_false_iff_not] at hr
  omega

theorem urlPath_ok {rest path : List Byte} (hs : ∀ c ∈ rest.head?, inAuthority c = false)
    (hb : ∀ b ∈ rest, 32 < b ∧ b ≠ 127) (h : urlPath rest = .ok path) :
    path.head? = some (ch '/') ∧ path.length < maxPathLen ∧ ∀ b ∈ path, 32 < b ∧ b ≠ 127 := by
  have slash : (32 : Byte) < ch '/' ∧ ch '/' ≠ 127 := by decide
  match rest, h with
  | [], h =>
    cases h
    exact ⟨rfl, by decide, by simpa using slash⟩
  | c :: rest, h =>
    simp only [urlPath] at h
    split at h
    · rename_i hq
      simp only [bind_ok_iff, check_ok_iff, exists_const, pure_ok_iff, decide_eq_false_iff_not] at h
      obtain ⟨hl, rfl⟩ := h
      refine ⟨rfl, by simp only [List.length_cons] at hl ⊢; omega, fun b hm => ?_⟩
      rcases List.mem_cons.1 hm with rfl | hm
      · exact slash
      · exact hb b hm
    · rename_i hq
      simp only [bind_ok_iff, check_ok_iff, exists_const, pure_ok_iff, decide_eq_false_iff_not] at h
      obtain ⟨hl, rfl⟩ := h
      have hc := hs c rfl
      simp only [inAuthority, Bool.and_eq_false_iff, bne_eq_false_iff_eq, hq, or_false] at hc
      exact ⟨by simp [hc], by omega, hb⟩

theorem head?_dropWhile_not {α : Type} {p : α → Bool} {l : List α} :
    ∀ c ∈ (l.dropWhile p).head?, p c = false := by
  intro c hc
  have := List.head?_dropWhile_not p l
  rw [hc] at this
  simpa using this

theorem parseHttpUrl_urlOk {u : List Byte} {r : ParsedUrl} (h : parseHttpUrl u = .ok r) : UrlOk r := by
  simp only [parseHttpUrl, bind_ok_iff, check_ok_iff, exists_const, pure_ok_iff] at h
  obtain ⟨-, -, hctl, -, -, -, -, -, colon, -, hne, hlen, hhost, port, hport, path, hpath, rfl⟩ := h
  simp only [List.any_eq_false, Bool.not_eq_true, Bool.or_eq_false_iff, decide_eq_false_iff_not,
    beq_eq_false_iff_ne, UInt8.not_le] at hctl
  have hb : ∀ b ∈ (u.drop scheme.length).dropWhile inAuthority, 32 < b ∧ b ≠ 127 := fun b hm =>
    hctl b (List.mem_of_mem_drop (List.dropWhile_subset _ hm))
  obtain ⟨hp₁, hp₂, hp₃⟩ := urlPath_ok head?_dropWhile_not hb hpath
  obtain ⟨hh₁, hh₂, hh₃⟩ := hostOk_of_map (List.isEmpty_eq_false_iff.1 hne) (Nat.not_le.1 (of_decide_eq_false hlen)) (by
    intro b hm
    have := List.any_eq_false.1 hhost b hm
    simp only [Bool.and_eq_true, Bool.not_eq_true', bne_iff_ne] at this
    by_contra hc
    simp only [Bool.or_eq_true, beq_iff_eq, not_or] at hc
    exact this ⟨⟨by simpa using hc.1.1, hc.1.2⟩, hc.2⟩)
  have hpo : 0 < port ∧ port ≤ 65535 := by
    cases colon with
    | none => cases hport; omega
    | some _ => exact parsePort_ok hport
  exact ⟨hh₁, hh₂, hh₃, hpo.1, hpo.2, hp₁, hp₂, hp₃⟩

/-! ## `parse_connect_request` -/

/-- The facts `parse_connect_request` establishes about what it returns. -/
structure ConnectOk (r : ParsedConnect) : Prop where
  hostNonempty : r.host ≠ []
  hostLen : r.host.length < maxHostLen
  hostBytes : ∀ b ∈ r.host, isParsedHostByte b
  portPos : 0 < r.port
  portLe : r.port ≤ 65535

theorem parseConnectRequest_connectOk {l : List Byte} {r : ParsedConnect}
    (h : parseConnectRequest l = .ok r) : ConnectOk r := by
  simp only [parseConnectRequest, bind_ok_iff, check_ok_iff, exists_const, pure_ok_iff] at h
  obtain ⟨-, -, -, -, -, colon, -, i, -, hne, hlen, hhost, -, -, hport, rfl⟩ := h
  obtain ⟨hh₁, hh₂, hh₃⟩ := hostOk_of_map (List.isEmpty_eq_false_iff.1 hne) (Nat.not_le.1 (of_decide_eq_false hlen)) (by
    intro b hm
    have := List.any_eq_false.1 hhost b hm
    simp only [Bool.not_eq_true', Bool.not_eq_false] at this
    simp [this])
  simp only [Bool.or_eq_false_iff, beq_eq_false_iff_ne, decide_eq_false_iff_not] at hport
  exact ⟨hh₁, hh₂, hh₃, by simp only; omega, by simp only; omega⟩

/-! ## Hosts of either parser -/

theorem ParserHost.facts {h : List Byte} (hp : ParserHost h) :
    h ≠ [] ∧ h.length < maxHostLen ∧ ∀ b ∈ h, isParsedHostByte b := by
  rcases hp with ⟨u, r, hr, rfl⟩ | ⟨l, r, hr, rfl⟩
  · have := parseHttpUrl_urlOk hr
    exact ⟨this.hostNonempty, this.hostLen, this.hostBytes⟩
  · have := parseConnectRequest_connectOk hr
    exact ⟨this.hostNonempty, this.hostLen, this.hostBytes⟩

end SecureProxy
