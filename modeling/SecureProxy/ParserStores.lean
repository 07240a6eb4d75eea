/-
The parsers with their stores: what `parse_http_url` and
`parse_connect_request` write into `host[256]`, `port` and `path[2048]`, byte
by byte, also on the way to an error. They come to what `SecureProxy.Parser`
says, and no store is out of bounds.
-/
import SecureProxy.ParserFacts

namespace SecureProxy

open Bytes Checks

/-- One store into the structure the caller passed. -/
inductive Store where
  | host (i : Nat) (b : Byte)
  | port (n : Nat)
  | path (i : Nat) (b : Byte)
  deriving DecidableEq, Repr

def Store.inBounds : Store → Prop
  | .host i _ => i < maxHostLen
  | .port n => n < 2 ^ 16
  | .path i _ => i < maxPathLen

/-- The stores of `s` into an array from index `start` on. -/
def cells (field : Nat → Byte → Store) (start : Nat) (s : List Byte) : List Store :=
  (s.zipIdx start).map fun x => field x.2 x.1

abbrev Parsing := Traced Store ParseStatus

/-- The loop that checks the host and copies it in lower case, with the NUL
behind it. -/
def hostLoop (bad : Byte → Bool) : List Byte → Nat → Parsing Unit
  | [], i => .tell [.host i 0]
  | c :: cs, i => do
    .lift (check (bad c) .invalidHost)
    .tell [.host i (toLower c)]
    hostLoop bad cs (i + 1)

def urlPathStores : List Byte → Parsing (List Byte)
  | [] => do
    .tell [.path 0 (ch '/'), .path 1 0]
    return [ch '/']
  | c :: rest =>
    if c = ch '?' then do
      .lift (check (decide ((c :: rest).length + 2 > maxPathLen)) .overlong)
      .tell (.path 0 (ch '/') :: cells .path 1 (c :: rest ++ [0]))
      return ch '/' :: c :: rest
    else do
      .lift (check (decide ((c :: rest).length ≥ maxPathLen)) .overlong)
      .tell (cells .path 0 (c :: rest ++ [0]))
      return c :: rest

def parseHttpUrlStores (rawUrl : List Byte) : Parsing ParsedUrl := do
  .lift (check rawUrl.isEmpty .malformed)
  .lift (check (decide (rawUrl.length > maxUrlLen)) .overlong)
  .lift (check (rawUrl.any fun uc => decide (uc ≤ 32) || uc == 127) .controlChar)
  .lift (check (rawUrl.contains (ch '#')) .fragment)
  .lift (check (decide (rawUrl.length < scheme.length)) .invalidScheme)
  .lift (check ((rawUrl.take scheme.length).map toLower != scheme) .invalidScheme)
  let p := rawUrl.drop scheme.length
  let auth := p.takeWhile inAuthority
  .lift (check auth.isEmpty .emptyHost)
  .lift (check (auth.contains (ch '@')) .credentials)
  let colon ← .lift (portDelimiter auth)
  let host := hostPart auth colon
  .lift (check host.isEmpty .emptyHost)
  .lift (check (decide (host.length ≥ maxHostLen)) .hostTooLong)
  hostLoop (fun c => !isHostByte c && c != ch '[' && c != ch ']') host 0
  let port ← .lift (portPart auth colon)
  .tell [.port port]
  let path ← urlPathStores (p.dropWhile inAuthority)
  return { host := host.map toLower, port, path }

def parseConnectRequestStores (line : List Byte) : Parsing ParsedConnect := do
  .lift (check (decide (line.length > maxUrlLen)) .overlong)
  .lift (check (line.any fun uc => decide (uc < 32) || uc == 127) .controlChar)
  .lift (check (!requestIsConnect line) .malformed)
  let rest := line.drop connectMethod.length
  .lift (check (rest.head? == some (ch ' ') || rest.isEmpty) .emptyHost)
  let target := rest.takeWhile (· != ch ' ')
  .lift (check (!versionOk (rest.dropWhile (· != ch ' '))) .malformed)
  let colon ← .lift (scanTarget target 0 none)
  let hostLen ← .lift (requireColon colon)
  let host := target.take hostLen
  .lift (check host.isEmpty .emptyHost)
  .lift (check (decide (host.length ≥ maxHostLen)) .hostTooLong)
  hostLoop (fun c => !isHostByte c) host 0
  let portStr := target.drop (hostLen + 1)
  .lift (check (portStr.isEmpty || decide (portStr.length > 5)) .invalidPort)
  .lift (check (portStr.any fun c => !isDigit c) .invalidPort)
  .lift (check (numVal portStr == 0 || decide (numVal portStr > 65535)) .invalidPort)
  .tell [.port (numVal portStr)]
  return { host := host.map toLower, port := numVal portStr }

/-! ## The stores change no result -/

theorem hostLoop_result (bad : Byte → Bool) (host : List Byte) (i : Nat) :
    (hostLoop bad host i).result = check (host.any bad) .invalidHost := by
  induction host generalizing i with
  | nil => rfl
  | cons c cs ih =>
    simp only [hostLoop, Traced.result_bind, Traced.result_lift, Traced.result_tell, ih, List.any_cons]
    cases bad c <;> rfl

theorem urlPathStores_result (rest : List Byte) : (urlPathStores rest).result = urlPath rest := by
  cases rest with
  | nil => rfl
  | cons c rest =>
    simp only [urlPathStores, urlPath]
    by_cases hc : c = ch '?'
    · rw [if_pos hc, if_pos hc]
      simp only [Traced.result_bind, Traced.result_lift, Traced.result_tell, Traced.result_pure]
      rfl
    · rw [if_neg hc, if_neg hc]
      simp only [Traced.result_bind, Traced.result_lift, Traced.result_tell, Traced.result_pure]
      rfl

theorem parseHttpUrlStores_result (u : List Byte) : (parseHttpUrlStores u).result = parseHttpUrl u := by
  simp only [parseHttpUrlStores, Traced.result_bind, Traced.result_lift, Traced.result_tell, Traced.result_pure,
    hostLoop_result, urlPathStores_result]
  rfl

theorem parseConnectRequestStores_result (l : List Byte) :
    (parseConnectRequestStores l).result = parseConnectRequest l := by
  simp only [parseConnectRequestStores, Traced.result_bind, Traced.result_lift, Traced.result_tell, Traced.result_pure,
    hostLoop_result]
  rfl

/-! ## Every store is in bounds -/

theorem forall_cells {P : Store → Prop} {field : Nat → Byte → Store} {start : Nat} {s : List Byte}
    (h : ∀ i b, i < start + s.length → P (field i b)) : ∀ x ∈ cells field start s, P x := by
  intro x hx
  obtain ⟨⟨b, i⟩, hmem, rfl⟩ := List.mem_map.1 hx
  have := List.snd_lt_of_mem_zipIdx hmem
  exact h i b (by omega)

theorem hostLoop_inBounds {bad : Byte → Bool} {host : List Byte} {i : Nat} (h : i + host.length < maxHostLen) :
    ∀ s ∈ (hostLoop bad host i).stores, s.inBounds := by
  induction host generalizing i with
  | nil =>
    intro s hs
    obtain rfl : s = .host i 0 := by simpa [hostLoop] using hs
    exact h
  | cons c cs ih =>
    rw [List.length_cons] at h
    unfold hostLoop
    refine Traced.forall_stores_bind (by simp) fun _ _ => Traced.forall_stores_bind ?_ fun _ _ => ih (by omega)
    intro s hs
    obtain rfl : s = .host i (toLower c) := by simpa using hs
    show i < maxHostLen
    omega

theorem urlPathStores_inBounds (rest : List Byte) : ∀ s ∈ (urlPathStores rest).stores, s.inBounds := by
  cases rest with
  | nil =>
    refine Traced.forall_stores_bind ?_ fun _ _ => by simp
    simp [Store.inBounds, maxPathLen]
  | cons c rest =>
    simp only [urlPathStores]
    by_cases hc : c = ch '?'
    · rw [if_pos hc]
      refine Traced.forall_stores_bind (by simp) fun _ hlen => Traced.forall_stores_bind ?_ fun _ _ => by simp
      rw [Traced.result_lift, check_ok_iff, decide_eq_false_iff_not] at hlen
      intro s hs
      rcases List.mem_cons.1 hs with rfl | hs
      · show 0 < maxPathLen
        decide
      · refine forall_cells (fun i b hi => ?_) s hs
        rw [List.length_append, List.length_singleton] at hi
        show i < maxPathLen
        omega
    · rw [if_neg hc]
      refine Traced.forall_stores_bind (by simp) fun _ hlen => Traced.forall_stores_bind ?_ fun _ _ => by simp
      rw [Traced.result_lift, check_ok_iff, decide_eq_false_iff_not] at hlen
      refine forall_cells fun i b hi => ?_
      rw [List.length_append, List.length_singleton] at hi
      show i < maxPathLen
      omega

/-- A check before the rest of a parser, which may rely on it. -/
theorem forall_stores_check {bad : Bool} {e : ParseStatus} {α : Type} {f : Unit → Parsing α}
    (h : bad = false → ∀ s ∈ (f ()).stores, s.inBounds) :
    ∀ s ∈ ((Traced.lift (check bad e) : Parsing Unit) >>= f).stores, s.inBounds := by
  refine Traced.forall_stores_bind (by simp) fun u hu => ?_
  rw [Traced.result_lift, check_ok_iff] at hu
  exact h hu

theorem portPart_lt {auth : List Byte} {colon : Option Nat} {port : Nat} (h : portPart auth colon = .ok port) :
    port < 2 ^ 16 := by
  cases colon with
  | none =>
    cases h
    decide
  | some i =>
    have := (parsePort_ok h).2
    omega

/-- Every store of `parse_http_url` is in bounds, whatever the line and
whatever the result. -/
theorem parseHttpUrlStores_inBounds (u : List Byte) : ∀ s ∈ (parseHttpUrlStores u).stores, s.inBounds := by
  unfold parseHttpUrlStores
  refine forall_stores_check fun _ => forall_stores_check fun _ => forall_stores_check fun _ =>
    forall_stores_check fun _ => forall_stores_check fun _ => forall_stores_check fun _ =>
    forall_stores_check fun _ => forall_stores_check fun _ => ?_
  refine Traced.forall_stores_bind (by simp) fun colon _ => ?_
  refine forall_stores_check fun _ => forall_stores_check fun hlen => ?_
  rw [decide_eq_false_iff_not] at hlen
  refine Traced.forall_stores_bind (hostLoop_inBounds (by omega)) fun _ _ => ?_
  refine Traced.forall_stores_bind (by simp) fun port hport => ?_
  refine Traced.forall_stores_bind ?_ fun _ _ => ?_
  · intro s hs
    obtain rfl : s = .port port := by simpa using hs
    exact portPart_lt hport
  · exact Traced.forall_stores_bind (urlPathStores_inBounds _) fun _ _ => by simp

theorem parseConnectRequestStores_inBounds (l : List Byte) :
    ∀ s ∈ (parseConnectRequestStores l).stores, s.inBounds := by
  unfold parseConnectRequestStores
  refine forall_stores_check fun _ => forall_stores_check fun _ => forall_stores_check fun _ =>
    forall_stores_check fun _ => forall_stores_check fun _ => ?_
  refine Traced.forall_stores_bind (by simp) fun colon _ => Traced.forall_stores_bind (by simp) fun hostLen _ => ?_
  refine forall_stores_check fun _ => forall_stores_check fun hlen => ?_
  rw [decide_eq_false_iff_not] at hlen
  refine Traced.forall_stores_bind (hostLoop_inBounds (by omega)) fun _ _ => ?_
  refine forall_stores_check fun _ => forall_stores_check fun _ => forall_stores_check fun hport => ?_
  refine Traced.forall_stores_bind ?_ fun _ _ => by simp
  intro s hs
  obtain rfl : s = .port _ := by simpa using hs
  simp only [Bool.or_eq_false_iff, decide_eq_false_iff_not] at hport
  show _ < 2 ^ 16
  omega

/-! ## What is stored in the end -/

theorem hostLoop_stores {bad : Byte → Bool} {host : List Byte} {i : Nat} (h : host.any bad = false) :
    (hostLoop bad host i).stores = cells .host i (host.map toLower ++ [0]) := by
  induction host generalizing i with
  | nil => rfl
  | cons c cs ih =>
    rw [List.any_cons, Bool.or_eq_false_iff] at h
    unfold hostLoop
    have hcheck : (Traced.lift (check (bad c) .invalidHost) : Parsing Unit).result = .ok () := by
      rw [Traced.result_lift, check_ok_iff]
      exact h.1
    rw [Traced.stores_bind hcheck, Traced.stores_bind (Traced.result_tell _), ih h.2]
    rfl

theorem urlPathStores_stores {rest path : List Byte} (h : (urlPathStores rest).result = .ok path) :
    (urlPathStores rest).stores = cells .path 0 (path ++ [0]) := by
  cases rest with
  | nil =>
    cases h
    rfl
  | cons c rest =>
    simp only [urlPathStores] at h ⊢
    by_cases hc : c = ch '?'
    · rw [if_pos hc] at h ⊢
      refine Traced.stores_of_ok (fun _ _ => Traced.stores_of_ok fun _ _ hpath => ?_) h
      cases hpath
      rw [Traced.stores_tell, Traced.stores_pure, List.append_nil]
      rfl
    · rw [if_neg hc] at h ⊢
      refine Traced.stores_of_ok (fun _ _ => Traced.stores_of_ok fun _ _ hpath => ?_) h
      cases hpath
      rw [Traced.stores_tell, Traced.stores_pure, List.append_nil]

theorem stores_check {bad : Bool} {e : ParseStatus} {α : Type} {f : Unit → Parsing α} {r : α} {ss : List Store}
    (h : (f ()).result = .ok r → (f ()).stores = ss) :
    ((Traced.lift (check bad e) : Parsing Unit) >>= f).result = .ok r →
      ((Traced.lift (check bad e) : Parsing Unit) >>= f).stores = ss :=
  Traced.stores_of_ok fun _ _ hr => h hr

/-- After `PARSE_OK` the arrays hold the host and the path, each with its NUL,
and nothing else has been written. -/
theorem parseHttpUrlStores_stores {u : List Byte} {r : ParsedUrl} (h : parseHttpUrl u = .ok r) :
    (parseHttpUrlStores u).stores = cells .host 0 (r.host ++ [0]) ++ .port r.port :: cells .path 0 (r.path ++ [0]) := by
  rw [← parseHttpUrlStores_result] at h
  revert h
  unfold parseHttpUrlStores
  refine stores_check <| stores_check <| stores_check <| stores_check <| stores_check <| stores_check <|
    stores_check <| stores_check <| Traced.stores_of_ok fun colon _ => ?_
  rw [Traced.stores_lift, List.nil_append]
  refine stores_check <| stores_check <| Traced.stores_of_ok fun _ hhost => ?_
  rw [hostLoop_result, check_ok_iff] at hhost
  rw [hostLoop_stores hhost]
  intro h
  rw [Traced.result_bind, Traced.result_lift, bind_ok_iff] at h
  obtain ⟨port, hport, h⟩ := h
  rw [Traced.stores_bind (by rw [Traced.result_lift, hport]), Traced.stores_lift, List.nil_append,
    Traced.stores_bind (Traced.result_tell _), Traced.stores_tell]
  rw [Traced.result_bind, Traced.result_tell, bind_ok_iff] at h
  obtain ⟨-, -, h⟩ := h
  rw [Traced.result_bind, bind_ok_iff] at h
  obtain ⟨path, hpath, h⟩ := h
  cases h
  rw [Traced.stores_bind hpath, urlPathStores_stores hpath, Traced.stores_pure, List.append_nil]
  rfl

theorem parseConnectRequestStores_stores {l : List Byte} {r : ParsedConnect} (h : parseConnectRequest l = .ok r) :
    (parseConnectRequestStores l).stores = cells .host 0 (r.host ++ [0]) ++ [.port r.port] := by
  rw [← parseConnectRequestStores_result] at h
  revert h
  unfold parseConnectRequestStores
  refine stores_check <| stores_check <| stores_check <| stores_check <| stores_check <|
    Traced.stores_of_ok fun colon _ => ?_
  rw [Traced.stores_lift, List.nil_append]
  refine Traced.stores_of_ok fun hostLen _ => ?_
  rw [Traced.stores_lift, List.nil_append]
  refine stores_check <| stores_check <| Traced.stores_of_ok fun _ hhost => ?_
  rw [hostLoop_result, check_ok_iff] at hhost
  rw [hostLoop_stores hhost]
  intro h
  have hr := h
  simp only [Traced.result_bind, Traced.result_lift, Traced.result_tell, Traced.result_pure, bind_ok_iff, check_ok_iff,
    exists_const] at hr
  obtain ⟨-, -, -, -, hr⟩ := hr
  cases hr
  congr 1
  revert h
  exact stores_check <| stores_check <| stores_check <| Traced.stores_of_ok fun _ _ _ => rfl

end SecureProxy
