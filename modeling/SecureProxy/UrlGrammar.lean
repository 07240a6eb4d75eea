/-
The URLs `parse_http_url` accepts, as a grammar: the parser says yes to a line
exactly where the grammar derives it, with the host, port and path the grammar
gives it.
-/
import SecureProxy.ParserStores

namespace SecureProxy

open Bytes Checks

/-! ## The grammar -/

/-- A host byte or a bracket. -/
def isUrlHostByte (c : Byte) : Bool := isHostByte c || c == ch '[' || c == ch ']'

/-- An authority with its host and port. Where it starts with '[', a port
counts only directly behind the first ']'. -/
structure UrlAuthority (auth host : List Byte) (port : Nat) : Prop where
  hostNonempty : host ≠ []
  hostLen : host.length ≤ 255
  hostBytes : ∀ b ∈ host, isUrlHostByte b = true
  port : (auth = host ∧ port = 80) ∨ ∃ digits, auth = host ++ ch ':' :: digits ∧ digits ≠ [] ∧
    (∀ d ∈ digits, isDigit d = true) ∧ numVal digits = port ∧ 1 ≤ port ∧ port ≤ 65535
  bracket : auth.head? = some (ch '[') → ch ']' ∈ auth ∧
    ∀ digits, auth = host ++ ch ':' :: digits → ∃ inside, host = inside ++ [ch ']'] ∧ ch ']' ∉ inside

/-- The path of what follows the authority. -/
def pathOf : List Byte → List Byte
  | [] => [ch '/']
  | c :: rest => if c = ch '?' then ch '/' :: c :: rest else c :: rest

/-- The lines that are a URL, and what they are parsed to. -/
inductive HttpUrl : List Byte → ParsedUrl → Prop
  | mk {sch auth rest host : List Byte} {port : Nat} (hscheme : sch.map toLower = bytes "http://")
      (hlen : (sch ++ auth ++ rest).length ≤ maxUrlLen)
      (hbytes : ∀ b ∈ sch ++ auth ++ rest, 32 < b ∧ b ≠ 127 ∧ b ≠ ch '#')
      (hauth : ∀ b ∈ auth, b ≠ ch '/' ∧ b ≠ ch '?' ∧ b ≠ ch '@')
      (hrest : ∀ c, rest.head? = some c → c = ch '/' ∨ c = ch '?')
      (hparts : UrlAuthority auth host port) :
      HttpUrl (sch ++ auth ++ rest) ⟨host.map toLower, port, pathOf rest⟩

/-! ## The port -/

theorem foldl_digits_ge (ds : List Byte) (v : Nat) : v ≤ ds.foldl (fun v d => v * 10 + digitVal d) v := by
  induction ds generalizing v with
  | nil => exact Nat.le_refl _
  | cons d ds ih =>
    have := ih (v * 10 + digitVal d)
    rw [List.foldl_cons]
    omega

/-- The loop that stops at the first value past 65535 misses no port. -/
theorem portLoop_ok_iff {ds : List Byte} {v n : Nat} (hv : v ≤ 65535) : portLoop ds v = .ok n ↔
    (∀ d ∈ ds, isDigit d = true) ∧ ds.foldl (fun v d => v * 10 + digitVal d) v = n ∧ n ≤ 65535 := by
  induction ds generalizing v with
  | nil =>
    simp only [portLoop, Except.ok.injEq, List.foldl_nil, List.not_mem_nil, false_implies, implies_true, true_and]
    omega
  | cons d ds ih =>
    simp only [portLoop, List.forall_mem_cons, List.foldl_cons]
    by_cases hd : isDigit d = true
    · rw [if_neg (by simp [hd])]
      have hge := foldl_digits_ge ds (v * 10 + digitVal d)
      by_cases hbig : v * 10 + digitVal d > 65535
      · rw [if_pos hbig]
        constructor
        · intro h
          cases h
        · intro h
          omega
      · rw [if_neg hbig, ih (by omega)]
        simp [hd]
    · rw [if_pos (by simp [hd])]
      simp [hd]

theorem parsePort_ok_iff {ds : List Byte} {n : Nat} : parsePort ds = .ok n ↔
    ds ≠ [] ∧ (∀ d ∈ ds, isDigit d = true) ∧ numVal ds = n ∧ 1 ≤ n ∧ n ≤ 65535 := by
  simp only [parsePort, bind_ok_iff, check_ok_iff, exists_const, pure_ok_iff, portLoop_ok_iff (Nat.zero_le 65535)]
  constructor
  · intro h
    obtain ⟨hne, v, ⟨hdigits, hval, hle⟩, hrange, rfl⟩ := h
    simp only [Bool.or_eq_false_iff, beq_eq_false_iff_ne, decide_eq_false_iff_not] at hrange
    exact ⟨by simpa using hne, hdigits, hval, by omega, hle⟩
  · intro h
    obtain ⟨hne, hdigits, hval, hpos, hle⟩ := h
    refine ⟨by simpa using hne, n, ⟨hdigits, hval, hle⟩, ?_, rfl⟩
    simp only [Bool.or_eq_false_iff, beq_eq_false_iff_ne, decide_eq_false_iff_not]
    omega

/-! ## The port delimiter -/

theorem findColon_some_ok_iff {cs : List Byte} {i k : Nat} {x : Option Nat} :
    findColon cs i (some k) = .ok x ↔ ch ':' ∉ cs ∧ x = some k := by
  induction cs generalizing i with
  | nil => simp [findColon, eq_comm]
  | cons c cs ih =>
    unfold findColon
    by_cases hc : c = ch ':'
    · rw [if_pos hc]
      simp [hc]
    · rw [if_neg hc, ih]
      simp [Ne.symm hc]

/-- The scan accepts an authority with at most one colon. -/
theorem findColon_ok_iff {cs : List Byte} {i : Nat} {x : Option Nat} : findColon cs i none = .ok x ↔
    (ch ':' ∉ cs ∧ x = none) ∨
      ∃ front back, cs = front ++ ch ':' :: back ∧ ch ':' ∉ front ∧ ch ':' ∉ back ∧ x = some (i + front.length) := by
  induction cs generalizing i with
  | nil => simp [findColon, eq_comm]
  | cons c cs ih =>
    unfold findColon
    by_cases hc : c = ch ':'
    · subst hc
      rw [if_pos rfl, if_neg (by simp), findColon_some_ok_iff]
      constructor
      · intro h
        exact .inr ⟨[], cs, rfl, List.not_mem_nil, h.1, h.2⟩
      · intro h
        obtain ⟨hno, -⟩ | ⟨front, back, heq, hfront, hback, hx⟩ := h
        · exact absurd List.mem_cons_self hno
        · cases front with
          | nil =>
            cases heq
            exact ⟨hback, hx⟩
          | cons c' front =>
            rw [List.cons_append, List.cons.injEq] at heq
            exact absurd (heq.1 ▸ List.mem_cons_self) hfront
    · rw [if_neg hc, ih]
      constructor
      · intro h
        obtain ⟨hno, hx⟩ | ⟨front, back, rfl, hfront, hback, hx⟩ := h
        · exact .inl ⟨by simp [Ne.symm hc, hno], hx⟩
        · refine .inr ⟨c :: front, back, rfl, by simp [Ne.symm hc, hfront], hback, ?_⟩
          rw [hx, List.length_cons]
          congr 1
          omega
      · intro h
        obtain ⟨hno, hx⟩ | ⟨front, back, heq, hfront, hback, hx⟩ := h
        · exact .inl ⟨fun hm => hno (List.mem_cons_of_mem _ hm), hx⟩
        · cases front with
          | nil =>
            cases heq
            exact absurd rfl hc
          | cons c' front =>
            rw [List.cons_append, List.cons.injEq] at heq
            refine .inr ⟨front, back, heq.2, fun hm => hfront (List.mem_cons_of_mem _ hm), hback, ?_⟩
            rw [hx, List.length_cons]
            congr 1
            omega

/-- Behind a '[', the first ']' decides. -/
theorem portDelimiter_bracket {inside back : List Byte} (hhead : (inside ++ ch ']' :: back).head? = some (ch '['))
    (h : ch ']' ∉ inside) : portDelimiter (inside ++ ch ']' :: back) =
      .ok (if back.head? = some (ch ':') then some (inside.length + 1) else none) := by
  have hidx : (inside ++ ch ']' :: back).findIdx? (· == ch ']') = some inside.length := by
    have hnone : inside.findIdx? (· == ch ']') = none := by
      rw [List.findIdx?_eq_none_iff]
      intro b hb
      simpa using fun hbe : b = ch ']' => h (hbe ▸ hb)
    rw [List.findIdx?_append, hnone, List.findIdx?_cons]
    simp
  have hnext : (inside ++ ch ']' :: back)[inside.length + 1]? = back.head? := by
    rw [List.getElem?_append_right (by omega), Nat.add_sub_cancel_left]
    simp [List.head?_eq_getElem?]
  unfold portDelimiter
  rw [if_pos hhead, hidx]
  simp only [hnext]

theorem drop_colon (host digits : List Byte) : (host ++ ch ':' :: digits).drop (host.length + 1) = digits := by
  rw [show host ++ ch ':' :: digits = (host ++ [ch ':']) ++ digits by simp,
    show host.length + 1 = (host ++ [ch ':']).length by simp, List.drop_left]

theorem parts_of_colon (host digits : List Byte) :
    hostPart (host ++ ch ':' :: digits) (some host.length) = host ∧
      portPart (host ++ ch ':' :: digits) (some host.length) = parsePort digits := by
  refine ⟨by simp [hostPart], ?_⟩
  simp only [portPart]
  rw [drop_colon]

theorem not_colon_of_host {host : List Byte} (h : ∀ b ∈ host, isUrlHostByte b = true) : ch ':' ∉ host := fun hm => by
  have := h _ hm
  revert this
  decide

theorem not_colon_of_digits {digits : List Byte} (h : ∀ d ∈ digits, isDigit d = true) : ch ':' ∉ digits := fun hm => by
  have := h _ hm
  revert this
  decide

/-- What the parser makes of an authority. -/
structure AuthorityParsed (auth host : List Byte) (port : Nat) (colon : Option Nat) : Prop where
  delimiter : portDelimiter auth = .ok colon
  host : hostPart auth colon = host
  port : portPart auth colon = .ok port

theorem UrlAuthority.parsed {auth host : List Byte} {port : Nat} (h : UrlAuthority auth host port) :
    ∃ colon, AuthorityParsed auth host port colon := by
  have hcolon := not_colon_of_host h.hostBytes
  by_cases hhead : auth.head? = some (ch '[')
  · obtain ⟨hclose, hbehind⟩ := h.bracket hhead
    obtain ⟨hauth, rfl⟩ | ⟨digits, rfl, hne, hdigits, hval, hpos, hle⟩ := h.port
    · subst hauth
      obtain ⟨inside, back, rfl, hin⟩ := List.eq_append_cons_of_mem hclose
      have hback : back.head? ≠ some (ch ':') := fun hb => by
        have hmem : ch ':' ∈ back := List.mem_of_head? hb
        exact hcolon (List.mem_append_right _ (List.mem_cons_of_mem _ hmem))
      exact ⟨none, by rw [portDelimiter_bracket hhead hin, if_neg hback], rfl, rfl⟩
    · obtain ⟨inside, rfl, hin⟩ := hbehind digits rfl
      obtain ⟨hhost, hport⟩ := parts_of_colon (inside ++ [ch ']']) digits
      refine ⟨some (inside ++ [ch ']']).length, ?_, hhost, ?_⟩
      · rw [List.append_assoc, List.singleton_append] at hhead ⊢
        rw [portDelimiter_bracket hhead hin]
        simp
      · rw [hport, parsePort_ok_iff]
        exact ⟨hne, hdigits, hval, hpos, hle⟩
  · have hdelim : portDelimiter auth = findColon auth 0 none := if_neg hhead
    obtain ⟨hauth, rfl⟩ | ⟨digits, rfl, hne, hdigits, hval, hpos, hle⟩ := h.port
    · subst hauth
      exact ⟨none, by rw [hdelim, findColon_ok_iff]; exact .inl ⟨hcolon, rfl⟩, rfl, rfl⟩
    · obtain ⟨hhost, hport⟩ := parts_of_colon host digits
      refine ⟨some host.length, ?_, hhost, ?_⟩
      · rw [hdelim, findColon_ok_iff]
        exact .inr ⟨host, digits, rfl, hcolon, not_colon_of_digits hdigits, by rw [Nat.zero_add]⟩
      · rw [hport, parsePort_ok_iff]
        exact ⟨hne, hdigits, hval, hpos, hle⟩

/-- An authority cut at its port delimiter. -/
theorem portDelimiter_cases {auth : List Byte} {colon : Option Nat} (h : portDelimiter auth = .ok colon) :
    (auth.head? = some (ch '[') → ch ']' ∈ auth) ∧
      (colon = none ∨ ∃ host digits, auth = host ++ ch ':' :: digits ∧ colon = some host.length ∧
        (auth.head? = some (ch '[') → ∃ inside, host = inside ++ [ch ']'] ∧ ch ']' ∉ inside)) := by
  by_cases hhead : auth.head? = some (ch '[')
  · by_cases hclose : ch ']' ∈ auth
    · refine ⟨fun _ => hclose, ?_⟩
      obtain ⟨inside, back, rfl, hin⟩ := List.eq_append_cons_of_mem hclose
      rw [portDelimiter_bracket hhead hin] at h
      cases back with
      | nil =>
        cases h
        exact .inl rfl
      | cons c back =>
        by_cases hc : c = ch ':'
        · subst hc
          cases h
          exact .inr ⟨inside ++ [ch ']'], back, by simp, by simp, fun _ => ⟨inside, rfl, hin⟩⟩
        · rw [if_neg (by simpa using hc)] at h
          cases h
          exact .inl rfl
    · have hnone : auth.findIdx? (· == ch ']') = none := by
        rw [List.findIdx?_eq_none_iff]
        intro b hb
        simpa using fun hbe : b = ch ']' => hclose (hbe ▸ hb)
      unfold portDelimiter at h
      rw [if_pos hhead, hnone] at h
      cases h
  · refine ⟨fun hh => absurd hh hhead, ?_⟩
    have hdelim : portDelimiter auth = findColon auth 0 none := if_neg hhead
    rw [hdelim, findColon_ok_iff] at h
    obtain ⟨-, rfl⟩ | ⟨front, back, rfl, -, -, rfl⟩ := h
    · exact .inl rfl
    · exact .inr ⟨front, back, rfl, by rw [Nat.zero_add], fun hh => absurd hh hhead⟩

theorem AuthorityParsed.urlAuthority {auth host : List Byte} {port : Nat} {colon : Option Nat}
    (h : AuthorityParsed auth host port colon) (hne : host ≠ []) (hlen : host.length ≤ 255)
    (hbytes : ∀ b ∈ host, isUrlHostByte b = true) : UrlAuthority auth host port := by
  obtain ⟨hdelim, hhost, hport⟩ := h
  have hcolon := not_colon_of_host hbytes
  obtain ⟨hclose, rfl | ⟨front, digits, rfl, rfl, hbehind⟩⟩ := portDelimiter_cases hdelim
  · cases hhost
    cases hport
    refine ⟨hne, hlen, hbytes, .inl ⟨rfl, rfl⟩, fun hhead => ⟨hclose hhead, fun digits heq => ?_⟩⟩
    exact absurd (heq ▸ List.mem_append_right _ List.mem_cons_self) hcolon
  · obtain ⟨hfront, hdigits⟩ := parts_of_colon front digits
    rw [hfront] at hhost
    subst hhost
    rw [hdigits, parsePort_ok_iff] at hport
    refine ⟨hne, hlen, hbytes, .inr ⟨digits, rfl, hport⟩, fun hhead => ⟨hclose hhead, fun digits' heq => ?_⟩⟩
    exact hbehind hhead

/-! ## The URL -/

/-- The tests for an overlong path are made on a line that is short enough. -/
theorem urlPath_eq {rest : List Byte} (h : rest.length + 2 ≤ maxPathLen) : urlPath rest = .ok (pathOf rest) := by
  cases rest with
  | nil => rfl
  | cons c rest =>
    simp only [urlPath, pathOf]
    by_cases hc : c = ch '?'
    · rw [if_pos hc, if_pos hc, bind_ok_iff]
      exact ⟨(), check_ok_iff.2 (decide_eq_false (by omega)), rfl⟩
    · rw [if_neg hc, if_neg hc, bind_ok_iff]
      exact ⟨(), check_ok_iff.2 (decide_eq_false (by omega)), rfl⟩

theorem isUrlHostByte_eq : ∀ c, (!isHostByte c && c != ch '[' && c != ch ']') = !isUrlHostByte c :=
  forall_byte (by decide +kernel)

/-- A line with the scheme, cut at the end of its authority. -/
structure UrlTested (u sch auth rest : List Byte) : Prop where
  parts : u = sch ++ auth ++ rest
  schemeText : sch.map toLower = bytes "http://"
  plain : ∀ b ∈ u, 32 < b ∧ b ≠ 127 ∧ b ≠ ch '#'
  auth : ∀ b ∈ auth, b ≠ ch '/' ∧ b ≠ ch '?' ∧ b ≠ ch '@'
  rest : ∀ c, rest.head? = some c → c = ch '/' ∨ c = ch '?'

theorem UrlTested.length_scheme {u sch auth rest : List Byte} (h : UrlTested u sch auth rest) : sch.length = 7 := by
  have := congrArg List.length h.schemeText
  rwa [List.length_map] at this

/-- So the parser finds these parts. -/
theorem UrlTested.cut {u sch auth rest : List Byte} (h : UrlTested u sch auth rest) :
    u.take scheme.length = sch ∧ (u.drop scheme.length).takeWhile inAuthority = auth ∧
      (u.drop scheme.length).dropWhile inAuthority = rest := by
  have hlen : scheme.length = sch.length := h.length_scheme.symm
  have hin : ∀ b ∈ auth, inAuthority b = true := fun b hb => by
    have := h.auth b hb
    simp [inAuthority, this]
  have hout : rest.takeWhile inAuthority = [] ∧ rest.dropWhile inAuthority = rest := by
    cases rest with
    | nil => exact ⟨rfl, rfl⟩
    | cons c rest =>
      have hc : inAuthority c = false := by
        obtain rfl | rfl := h.rest c rfl <;> rfl
      exact ⟨List.takeWhile_cons_of_neg (by simp [hc]), List.dropWhile_cons_of_neg (by simp [hc])⟩
  rw [h.parts, hlen, List.append_assoc, List.take_left, List.drop_left, List.takeWhile_append_of_pos hin,
    List.dropWhile_append_of_pos hin, hout.1, hout.2, List.append_nil]
  exact ⟨rfl, rfl, rfl⟩

theorem plain_iff {u : List Byte} :
    (u.any (fun uc => decide (uc ≤ 32) || uc == 127) = false ∧ u.contains (ch '#') = false) ↔
      ∀ b ∈ u, 32 < b ∧ b ≠ 127 ∧ b ≠ ch '#' := by
  simp only [List.any_eq_false, Bool.or_eq_true, decide_eq_true_eq, beq_iff_eq, not_or, UInt8.not_le,
    List.contains_eq_mem, decide_eq_false_iff_not]
  constructor
  · intro h b hb
    exact ⟨(h.1 b hb).1, (h.1 b hb).2, fun hbe => h.2 (hbe ▸ hb)⟩
  · intro h
    exact ⟨fun b hb => ⟨(h b hb).1, (h b hb).2.1⟩, fun hm => (h _ hm).2.2 rfl⟩

theorem HttpUrl.parse {u : List Byte} {r : ParsedUrl} (h : HttpUrl u r) : parseHttpUrl u = .ok r := by
  cases h with
  | @mk sch auth rest host port hscheme hlen hbytes hauth hrest hparts =>
    have htested : UrlTested (sch ++ auth ++ rest) sch auth rest :=
      ⟨rfl, hscheme, hbytes, hauth, hrest⟩
    obtain ⟨htake, hcut, htail⟩ := htested.cut
    have hsch := htested.length_scheme
    obtain ⟨colon, hdelim, hhost, hport⟩ := hparts.parsed
    obtain ⟨hctl, hfrag⟩ := plain_iff.2 hbytes
    have hauthne : auth ≠ [] := by
      obtain ⟨rfl, -⟩ | ⟨digits, rfl, -⟩ := hparts.port
      · exact hparts.hostNonempty
      · simp
    have hat : auth.contains (ch '@') = false := by
      simpa using fun hm => (hauth _ hm).2.2 rfl
    have hbad : (host.any fun c => !isHostByte c && c != ch '[' && c != ch ']') = false := by
      rw [List.any_eq_false]
      intro c hc
      rw [isUrlHostByte_eq, hparts.hostBytes c hc]
      simp
    have hpos : 0 < auth.length := List.length_pos_iff.2 hauthne
    have hrestlen : rest.length + 2 ≤ maxPathLen := by
      simp only [List.length_append, maxUrlLen] at hlen
      simp only [maxPathLen]
      omega
    have hne : (sch ++ auth ++ rest).isEmpty = false := by
      rw [List.isEmpty_eq_false_iff, ← List.length_pos_iff]
      simp only [List.length_append]
      omega
    have hshort : scheme.length ≤ (sch ++ auth ++ rest).length := by
      simp only [List.length_append, hsch]
      exact Nat.le_trans (Nat.le_add_right _ _) (Nat.le_add_right _ _)
    have hhostlen := hparts.hostLen
    simp only [parseHttpUrl, bind_ok_iff, check_ok_iff, exists_const, pure_ok_iff]
    refine ⟨hne, decide_eq_false (by omega), hctl, hfrag, decide_eq_false (by omega), ?_, ?_, ?_, colon, ?_, ?_, ?_, ?_,
      port, ?_, pathOf rest, ?_, ?_⟩
    · rw [htake, hscheme]
      rfl
    · rw [hcut]
      simpa using hauthne
    · rw [hcut]
      exact hat
    · rw [hcut]
      exact hdelim
    · rw [hcut, hhost]
      simpa using hparts.hostNonempty
    · rw [hcut, hhost]
      exact decide_eq_false (by simp only [maxHostLen]; omega)
    · rw [hcut, hhost]
      exact hbad
    · rw [hcut]
      exact hport
    · rw [htail]
      exact urlPath_eq hrestlen
    · rw [hcut, hhost]

theorem httpUrl_of_parse {u : List Byte} {r : ParsedUrl} (h : parseHttpUrl u = .ok r) : HttpUrl u r := by
  simp only [parseHttpUrl, bind_ok_iff, check_ok_iff, exists_const, pure_ok_iff] at h
  obtain ⟨-, hlen, hctl, hfrag, -, hsch, hauthne, hcred, colon, hdelim, hhostne, hhostlen, hhost, port, hport, path, hpath, rfl⟩ := h
  rw [decide_eq_false_iff_not] at hlen hhostlen
  have hparts : u = u.take scheme.length ++ (u.drop scheme.length).takeWhile inAuthority ++
      (u.drop scheme.length).dropWhile inAuthority := by
    rw [List.append_assoc, List.takeWhile_append_dropWhile, List.take_append_drop]
  have hbytes := plain_iff.1 ⟨hctl, hfrag⟩
  have hrest : ∀ c, ((u.drop scheme.length).dropWhile inAuthority).head? = some c → c = ch '/' ∨ c = ch '?' := by
    intro c hc
    have := head?_dropWhile_not c hc
    simp only [inAuthority, Bool.and_eq_false_iff, bne_eq_false_iff_eq] at this
    exact this
  have hin : ∀ b ∈ (u.drop scheme.length).takeWhile inAuthority, inAuthority b = true := fun b hb =>
    List.mem_takeWhile_imp hb
  have hscheme : (u.take scheme.length).map toLower = bytes "http://" := bne_eq_false_iff_eq.1 hsch
  have hscheme7 := congrArg List.length hscheme
  generalize u.take scheme.length = sch at hparts hscheme hscheme7
  generalize (u.drop scheme.length).takeWhile inAuthority = auth at *
  generalize (u.drop scheme.length).dropWhile inAuthority = rest at *
  subst hparts
  have hparsed : UrlAuthority auth (hostPart auth colon) port := by
    refine AuthorityParsed.urlAuthority ⟨hdelim, rfl, hport⟩ (by simpa using hhostne) (by simp only [maxHostLen] at hhostlen; omega) ?_
    intro b hb
    have := List.any_eq_false.1 hhost b hb
    rw [isUrlHostByte_eq] at this
    simpa using this
  have hpos : 0 < auth.length := List.length_pos_iff.2 (by simpa using hauthne)
  have hrestlen : rest.length + 2 ≤ maxPathLen := by
    rw [List.length_map] at hscheme7
    have h7 : (bytes "http://").length = 7 := length_bytes _
    simp only [List.length_append, maxUrlLen] at hlen
    simp only [maxPathLen]
    omega
  rw [urlPath_eq hrestlen] at hpath
  cases hpath
  refine .mk hscheme (Nat.not_lt.1 hlen) hbytes (fun b hb => ?_) hrest hparsed
  have := hin b hb
  simp only [inAuthority, Bool.and_eq_true, bne_iff_ne] at this
  exact ⟨this.1, this.2, fun hbe => by simp [hbe ▸ hb] at hcred⟩

/-! ## Overlong lines -/

theorem findColon_error {cs : List Byte} {i : Nat} {colon : Option Nat} {e : ParseStatus}
    (h : findColon cs i colon = .error e) : e = .malformed := by
  induction cs generalizing i colon with
  | nil => cases h
  | cons c cs ih =>
    unfold findColon at h
    split at h
    · split at h
      · cases h
        rfl
      · exact ih h
    · exact ih h

theorem portDelimiter_error {auth : List Byte} {e : ParseStatus} (h : portDelimiter auth = .error e) :
    e = .invalidHost ∨ e = .malformed := by
  unfold portDelimiter at h
  split at h
  · split at h
    · cases h
      exact .inl rfl
    · cases h
  · exact .inr (findColon_error h)

theorem portLoop_error {ds : List Byte} {v : Nat} {e : ParseStatus} (h : portLoop ds v = .error e) : e = .invalidPort := by
  induction ds generalizing v with
  | nil => cases h
  | cons d ds ih =>
    unfold portLoop at h
    split at h
    · cases h
      rfl
    · split at h
      · cases h
        rfl
      · exact ih h

theorem portPart_error {auth : List Byte} {colon : Option Nat} {e : ParseStatus} (h : portPart auth colon = .error e) :
    e = .invalidPort := by
  cases colon with
  | none => cases h
  | some i =>
    simp only [portPart, parsePort, bind_error_iff, check_error_iff, pure_error_iff, and_false, exists_false, or_false] at h
    obtain ⟨-, rfl⟩ | ⟨-, -, h | ⟨v, -, -, rfl⟩⟩ := h
    · rfl
    · exact portLoop_error h
    · rfl

/-- The line is overlong, or nothing is: the two tests on the path never fail. -/
theorem parseHttpUrl_overlong {u : List Byte} : parseHttpUrl u = .error .overlong ↔ maxUrlLen < u.length := by
  simp only [parseHttpUrl, bind_error_iff, check_error_iff, check_ok_iff, exists_const, pure_error_iff, reduceCtorEq,
    and_false, false_or, or_false, and_true]
  constructor
  · intro h
    obtain ⟨-, hlen | ⟨hlen, -, -, hshort, -, hauth, -, h⟩⟩ := h
    · exact of_decide_eq_true hlen
    · obtain hdelim | ⟨colon, -, -, -, -, hport | ⟨port, -, hpath⟩⟩ := h
      · exact absurd (portDelimiter_error hdelim) (by simp)
      · exact absurd (portPart_error hport) (by simp)
      · rw [decide_eq_false_iff_not] at hlen hshort
        have hcut := congrArg List.length (List.takeWhile_append_dropWhile (p := inAuthority) (l := u.drop scheme.length))
        rw [List.length_append, List.length_drop] at hcut
        have hpos : 0 < ((u.drop scheme.length).takeWhile inAuthority).length :=
          List.length_pos_iff.2 (by simpa using hauth)
        have h7 : scheme.length = 7 := by decide
        simp only [maxUrlLen] at hlen
        rw [urlPath_eq (by simp only [maxPathLen]; omega)] at hpath
        cases hpath
  · intro h
    refine ⟨?_, .inl (decide_eq_true h)⟩
    rw [List.isEmpty_eq_false_iff, ← List.length_pos_iff]
    omega

/-- **The parser accepts exactly the grammar.** The line is parsed to what the
grammar says, and refused as overlong exactly where it is longer than 2048
bytes. Whatever it comes to, no store is outside `host[256]` or `path[2048]`,
and after `PARSE_OK` they hold the host and the path. -/
theorem parseHttpUrl_grammar (u : List Byte) :
    (∀ r, parseHttpUrl u = .ok r ↔ HttpUrl u r) ∧
      (parseHttpUrl u = .error .overlong ↔ maxUrlLen < u.length) ∧
      (parseHttpUrlStores u).result = parseHttpUrl u ∧
      (∀ s ∈ (parseHttpUrlStores u).stores, s.inBounds) ∧
      ∀ r, parseHttpUrl u = .ok r → (parseHttpUrlStores u).stores =
        cells .host 0 (r.host ++ [0]) ++ .port r.port :: cells .path 0 (r.path ++ [0]) :=
  ⟨fun _ => ⟨httpUrl_of_parse, HttpUrl.parse⟩, parseHttpUrl_overlong, parseHttpUrlStores_result u,
    parseHttpUrlStores_inBounds u, fun _ => parseHttpUrlStores_stores⟩

end SecureProxy
