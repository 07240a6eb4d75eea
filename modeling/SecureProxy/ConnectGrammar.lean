/-
The lines `parse_connect_request` accepts, as a grammar: the method, a host, a
port of at most five digits, and at most one of two versions behind it.
-/
import SecureProxy.UrlGrammar

namespace SecureProxy

open Bytes Checks

/-- What may stand behind the target. -/
def IsVersion (version : List Byte) : Prop :=
  version = [] ∨ version = bytes " HTTP/1.0" ∨ version = bytes " HTTP/1.1"

/-- The lines that are a `CONNECT` request, and what they are parsed to. -/
inductive ConnectLine : List Byte → ParsedConnect → Prop
  | mk {host digits version : List Byte} (hhost : host ≠ []) (hlen : host.length ≤ 255)
      (hbytes : ∀ b ∈ host, isHostByte b = true) (hne : digits ≠ []) (hfive : digits.length ≤ 5)
      (hdigits : ∀ d ∈ digits, isDigit d = true) (hpos : 1 ≤ numVal digits) (hle : numVal digits ≤ 65535)
      (hversion : IsVersion version) :
      ConnectLine (bytes "CONNECT " ++ (host ++ ch ':' :: digits) ++ version) ⟨host.map toLower, numVal digits⟩

/-! ## The target -/

/-- The bytes the scan of the target refuses. -/
def isForbidden (c : Byte) : Bool :=
  c == ch '@' || c == ch '/' || c == ch '?' || c == ch '#' || c == ch '[' || c == ch ']'

/-- The scan of the target is the search for a colon in the other parser, with
some bytes refused. -/
theorem scanTarget_ok_iff {cs : List Byte} {i : Nat} {colon x : Option Nat} : scanTarget cs i colon = .ok x ↔
    (∀ c ∈ cs, isForbidden c = false) ∧ findColon cs i colon = .ok x := by
  induction cs generalizing i colon with
  | nil => simp [scanTarget, findColon]
  | cons c cs ih =>
    unfold scanTarget findColon
    by_cases hat : c = ch '@'
    · rw [if_pos hat]
      simp [hat, isForbidden]
    · rw [if_neg hat]
      by_cases hbad : c = ch '/' ∨ c = ch '?' ∨ c = ch '#' ∨ c = ch '[' ∨ c = ch ']'
      · have hf : isForbidden c = true := by
          simp only [isForbidden, Bool.or_eq_true, beq_iff_eq]
          tauto
        rw [if_pos hbad]
        simp [hf]
      · have hf : isForbidden c = false := by
          simp only [isForbidden, Bool.or_eq_false_iff, beq_eq_false_iff_ne]
          tauto
        rw [if_neg hbad, List.forall_mem_cons]
        simp only [hf, true_and]
        by_cases hc : c = ch ':'
        · rw [if_pos hc, if_pos hc]
          by_cases hsome : colon.isSome = true
          · rw [if_pos hsome, if_pos hsome]
            simp
          · rw [if_neg hsome, if_neg hsome]
            exact ih
        · rw [if_neg hc, if_neg hc]
          exact ih

theorem isHostByte_target : ∀ b, isHostByte b = true → isForbidden b = false ∧ isUrlHostByte b = true ∧
    (b != ch ' ') = true ∧ (decide (b < 32) || b == 127) = false := forall_byte (by decide +kernel)

theorem isDigit_target : ∀ b, isDigit b = true → isForbidden b = false ∧ (b != ch ' ') = true ∧
    (decide (b < 32) || b == 127) = false := forall_byte (by decide +kernel)

theorem isVersion_of_ok {tail : List Byte} (hhead : ∀ c ∈ tail.head?, (c != ch ' ') = false) (h : versionOk tail = true) :
    IsVersion tail := by
  cases tail with
  | nil => exact .inl rfl
  | cons c ver =>
    obtain rfl : c = ch ' ' := by simpa using hhead c rfl
    simp only [versionOk, Bool.or_eq_true, beq_iff_eq] at h
    obtain rfl | rfl := h
    · exact .inr (.inr rfl)
    · exact .inr (.inl rfl)

theorem IsVersion.facts {version : List Byte} (h : IsVersion version) :
    version.takeWhile (· != ch ' ') = [] ∧ version.dropWhile (· != ch ' ') = version ∧ versionOk version = true ∧
      version.length ≤ 9 ∧ (version.any fun uc => decide (uc < 32) || uc == 127) = false := by
  obtain rfl | rfl | rfl := h
  · decide
  · decide
  · decide

theorem target_bytes {host digits : List Byte} (hhost : ∀ b ∈ host, isHostByte b = true)
    (hdigits : ∀ d ∈ digits, isDigit d = true) :
    ∀ b ∈ host ++ ch ':' :: digits, isForbidden b = false ∧ (b != ch ' ') = true ∧
      (decide (b < 32) || b == 127) = false := by
  intro b hb
  rcases List.mem_append.1 hb with hb | hb
  · have := isHostByte_target b (hhost b hb)
    exact ⟨this.1, this.2.2.1, this.2.2.2⟩
  · rcases List.mem_cons.1 hb with rfl | hb
    · decide
    · exact isDigit_target b (hdigits b hb)

theorem scanTarget_target {host digits : List Byte} (hhost : ∀ b ∈ host, isHostByte b = true)
    (hdigits : ∀ d ∈ digits, isDigit d = true) :
    scanTarget (host ++ ch ':' :: digits) 0 none = .ok (some host.length) := by
  rw [scanTarget_ok_iff, findColon_ok_iff]
  refine ⟨fun b hb => (target_bytes hhost hdigits b hb).1,
    .inr ⟨host, digits, rfl, ?_, not_colon_of_digits hdigits, by rw [Nat.zero_add]⟩⟩
  exact not_colon_of_host fun b hb => (isHostByte_target b (hhost b hb)).2.1

/-! ## The line -/

/-- The parser finds the method, the target and the version. -/
theorem connect_cut {target version : List Byte} (htarget : ∀ b ∈ target, (b != ch ' ') = true)
    (hversion : IsVersion version) :
    requestIsConnect (bytes "CONNECT " ++ target ++ version) = true ∧
      (bytes "CONNECT " ++ target ++ version).drop connectMethod.length = target ++ version ∧
      (target ++ version).takeWhile (· != ch ' ') = target ∧ (target ++ version).dropWhile (· != ch ' ') = version := by
  obtain ⟨htake, hdrop, -⟩ := hversion.facts
  have hmethod : connectMethod.length = (bytes "CONNECT ").length := rfl
  refine ⟨?_, ?_, ?_, ?_⟩
  · unfold requestIsConnect
    rw [hmethod, List.append_assoc, List.take_left]
    rfl
  · rw [hmethod, List.append_assoc, List.drop_left]
  · rw [List.takeWhile_append_of_pos htarget, htake, List.append_nil]
  · rw [List.dropWhile_append_of_pos htarget, hdrop]

theorem ConnectLine.parse {l : List Byte} {r : ParsedConnect} (h : ConnectLine l r) : parseConnectRequest l = .ok r := by
  cases h with
  | @mk host digits version hhost hlen hbytes hne hfive hdigits hpos hle hversion =>
    obtain ⟨-, -, hver, hverlen, hverctl⟩ := hversion.facts
    have htarget := target_bytes hbytes hdigits
    have hscan := scanTarget_target hbytes hdigits
    obtain ⟨hconnect, hrest, hcut, htail⟩ := connect_cut (fun b hb => (htarget b hb).2.1) hversion
    have hctl : ((bytes "CONNECT " ++ (host ++ ch ':' :: digits) ++ version).any fun uc => decide (uc < 32) || uc == 127) =
        false := by
      rw [List.any_append, List.any_append, Bool.or_eq_false_iff, Bool.or_eq_false_iff]
      refine ⟨⟨by decide, List.any_eq_false.2 fun b hb => ?_⟩, hverctl⟩
      simpa using (htarget b hb).2.2
    have hhead : ((host ++ ch ':' :: digits ++ version).head? == some (ch ' ') ||
        (host ++ ch ':' :: digits ++ version).isEmpty) = false := by
      cases host with
      | nil => exact absurd rfl hhost
      | cons b host =>
        have := (htarget b (by simp)).2.1
        simpa using this
    have hlength : (bytes "CONNECT " ++ (host ++ ch ':' :: digits) ++ version).length ≤ maxUrlLen := by
      have hmethod : (bytes "CONNECT ").length = 8 := length_bytes _
      simp only [List.length_append, List.length_cons, hmethod, maxUrlLen]
      omega
    simp only [parseConnectRequest, bind_ok_iff, check_ok_iff, exists_const, pure_ok_iff, hrest, hcut, htail]
    refine ⟨decide_eq_false (by omega), hctl, by rw [hconnect]; rfl, hhead, by simp [hver], some host.length, hscan, host.length,
      rfl, ?_, ?_, ?_, ?_, ?_, ?_, ?_⟩
    · simpa using hhost
    · rw [List.take_left]
      exact decide_eq_false (by simp only [maxHostLen]; omega)
    · rw [List.take_left, List.any_eq_false]
      exact fun b hb => by simp [hbytes b hb]
    · rw [drop_colon, Bool.or_eq_false_iff]
      exact ⟨by simpa using hne, decide_eq_false (by omega)⟩
    · rw [drop_colon, List.any_eq_false]
      exact fun d hd => by simp [hdigits d hd]
    · rw [drop_colon, Bool.or_eq_false_iff, beq_eq_false_iff_ne, decide_eq_false_iff_not]
      omega
    · rw [List.take_left, drop_colon]

theorem connectLine_of_parse {l : List Byte} {r : ParsedConnect} (h : parseConnectRequest l = .ok r) : ConnectLine l r := by
  simp only [parseConnectRequest, bind_ok_iff, check_ok_iff, exists_const, pure_ok_iff] at h
  obtain ⟨-, -, hconnect, -, hver, colon, hscan, k, hk, hne, hlen, hhost, hfive, hdigits, hval, rfl⟩ := h
  obtain rfl : colon = some k := by
    cases colon with
    | none => cases hk
    | some i =>
      cases hk
      rfl
  have hversion : IsVersion ((l.drop connectMethod.length).dropWhile (· != ch ' ')) :=
    isVersion_of_ok head?_dropWhile_not (by simpa using hver)
  have hparts : l = bytes "CONNECT " ++ (l.drop connectMethod.length).takeWhile (· != ch ' ') ++
      (l.drop connectMethod.length).dropWhile (· != ch ' ') := by
    have htake : l.take connectMethod.length = connectMethod := by simpa [requestIsConnect] using hconnect
    show l = connectMethod ++ _ ++ _
    rw [List.append_assoc, List.takeWhile_append_dropWhile]
    exact (List.take_append_drop connectMethod.length l).symm.trans (by rw [htake])
  generalize (l.drop connectMethod.length).takeWhile (· != ch ' ') = target at *
  generalize (l.drop connectMethod.length).dropWhile (· != ch ' ') = version at *
  subst hparts
  obtain ⟨-, hcolon⟩ := scanTarget_ok_iff.1 hscan
  rw [findColon_ok_iff] at hcolon
  obtain ⟨-, hnone⟩ | ⟨host, digits, rfl, -, -, hsome⟩ := hcolon
  · cases hnone
  · rw [Nat.zero_add, Option.some.injEq] at hsome
    subst hsome
    rw [List.take_left] at hne hlen hhost ⊢
    rw [drop_colon] at hfive hdigits hval ⊢
    simp only [Bool.or_eq_false_iff, beq_eq_false_iff_ne, decide_eq_false_iff_not] at hfive hval
    rw [decide_eq_false_iff_not] at hlen
    simp only [maxHostLen] at hlen
    refine .mk (by simpa using hne) (by omega) (fun b hb => ?_) (by simpa using hfive.1) (by omega) (fun d hd => ?_)
      (by omega) (by omega) hversion
    · simpa using List.any_eq_false.1 hhost b hb
    · simpa using List.any_eq_false.1 hdigits d hd

/-- **The parser accepts exactly the grammar**, and parses the line to the host
and port it gives. Whatever the line, no store is outside `host[256]`, and
after `PARSE_OK` it holds the host. -/
theorem parseConnectRequest_grammar (l : List Byte) :
    (∀ r, parseConnectRequest l = .ok r ↔ ConnectLine l r) ∧
      (parseConnectRequestStores l).result = parseConnectRequest l ∧
      (∀ s ∈ (parseConnectRequestStores l).stores, s.inBounds) ∧
      ∀ r, parseConnectRequest l = .ok r →
        (parseConnectRequestStores l).stores = cells .host 0 (r.host ++ [0]) ++ [.port r.port] :=
  ⟨fun _ => ⟨connectLine_of_parse, ConnectLine.parse⟩, parseConnectRequestStores_result l,
    parseConnectRequestStores_inBounds l, fun _ => parseConnectRequestStores_stores⟩

end SecureProxy
