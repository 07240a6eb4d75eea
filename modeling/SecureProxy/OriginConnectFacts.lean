/-
What `origin_connect` guarantees, whatever the resolver and the sockets do
(private networks not allowed): nothing unsafe is connected to, the name is
looked up once, and every descriptor opened is either handed out or closed.

A trace keeps a ledger of descriptors: `socket` enters one, `close` strikes
one that is there, and striking one that is not is an error. So a trace
with a ledger closes each socket it opened at most once, and those still
on it are the ones left open.
-/
import SecureProxy.OriginConnect

namespace SecureProxy

open Bytes

/-- The descriptors open after a trace, `held` being open before it; `none`
if it closes one that is not open. -/
def ledger (held : List Fd) : List ConnEvent → Option (List Fd)
  | [] => some held
  | .socket fd :: es => ledger (fd :: held) es
  | .close fd :: es => if fd ∈ held then ledger (held.erase fd) es else none
  | .getaddrinfo .. :: es | .connect .. :: es => ledger held es

/-- The address of a `connect` call. -/
def ConnEvent.target? : ConnEvent → Option Sockaddr
  | .connect _ addr => some addr
  | _ => none

/-- The addresses a trace calls `connect` on, in order. -/
def connectTargets (trace : List ConnEvent) : List Sockaddr := trace.filterMap ConnEvent.target?

def ConnEvent.isDnsLookup : ConnEvent → Bool
  | .getaddrinfo false _ _ => true
  | _ => false

theorem ledger_append (es₁ es₂ : List ConnEvent) : ∀ held,
    ledger held (es₁ ++ es₂) = (ledger held es₁).bind fun held => ledger held es₂ := by
  induction es₁ with
  | nil => intro held; rfl
  | cons e es ih =>
    intro held
    cases e with
    | close fd =>
      simp only [List.cons_append, ledger]
      split
      · exact ih _
      · rfl
    | _ => exact ih _

/-! ## The connection loop -/

section Loop

variable {attempt : Nat → Attempt}

/-- The calls made for one address open its socket and no other. -/
theorem ledger_attemptTrace (a : Attempt) (fd : Fd) (addr : Sockaddr) (held : List Fd) :
    ledger held (attemptTrace a fd addr) = some (fd :: held) := by
  unfold attemptTrace
  split <;> rfl

theorem connectTargets_attemptTrace (a : Attempt) (fd : Fd) (addr : Sockaddr) :
    (connectTargets (attemptTrace a fd addr)).Sublist [addr] := by
  unfold attemptTrace
  split
  · exact List.Sublist.refl _
  · exact List.nil_sublist _

/-- What the loop over `list` from position `i` does. -/
structure LoopSpec (attempt : Nat → Attempt) (i : Nat) (list : List Sockaddr) (r : ConnectResult) : Prop where
  ledger : ∀ held, ledger held r.trace = some (r.outFd.toList ++ held)
  okIff : r.status = .ok ↔ r.outFd.isSome
  targets : (connectTargets r.trace).Sublist list
  noLookup : r.trace.countP ConnEvent.isDnsLookup = 0
  reached : ∀ fd, r.outFd = some fd → ∃ k addr peer, list[k]? = some addr ∧
    (attempt (i + k)).socket = some fd ∧ r.trace.getLast? = some (.connect fd addr) ∧
    (attempt (i + k)).peer = some peer ∧ addressIsUnsafe peer = false

theorem LoopSpec.nothing {i : Nat} {list : List Sockaddr} {status : FetchStatus} (h : status ≠ .ok) :
    LoopSpec attempt i list ⟨status, none, []⟩ where
  ledger _ := rfl
  okIff := by simp [h]
  targets := List.nil_sublist _
  noLookup := rfl
  reached := by simp

theorem countP_attemptTrace (a : Attempt) (fd : Fd) (addr : Sockaddr) :
    (attemptTrace a fd addr).countP ConnEvent.isDnsLookup = 0 := by
  unfold attemptTrace
  split <;> rfl

/-- A socket that is opened, given up and closed leaves the rest of the loop as it is. -/
theorem LoopSpec.giveUp {i : Nat} {list : List Sockaddr} {r : ConnectResult} (a : Attempt) (fd : Fd)
    (addr : Sockaddr) (h : LoopSpec attempt (i + 1) list r) :
    LoopSpec attempt i (addr :: list) { r with trace := attemptTrace a fd addr ++ .close fd :: r.trace } where
  ledger held := by
    rw [ledger_append, ledger_attemptTrace]
    simpa [SecureProxy.ledger] using h.ledger held
  okIff := h.okIff
  targets := by
    simp only [connectTargets, List.filterMap_append, List.filterMap_cons, ConnEvent.target?]
    exact (connectTargets_attemptTrace a fd addr).append h.targets
  noLookup := by
    simp only [List.countP_append, countP_attemptTrace, List.countP_cons, h.noLookup, ConnEvent.isDnsLookup]
    rfl
  reached fd' hfd := by
    obtain ⟨k, addr', peer, hk, hs, hl, hp, hu⟩ := h.reached fd' hfd
    refine ⟨k + 1, addr', peer, by simpa using hk, ?_, ?_, ?_, hu⟩
    · rw [← Nat.add_assoc, Nat.add_right_comm]; exact hs
    · rw [List.getLast?_append, List.getLast?_cons, hl]; rfl
    · rw [← Nat.add_assoc, Nat.add_right_comm]; exact hp

/-- One more address that got no socket. -/
theorem LoopSpec.skip {i : Nat} {list : List Sockaddr} {r : ConnectResult} (addr : Sockaddr)
    (h : LoopSpec attempt (i + 1) list r) : LoopSpec attempt i (addr :: list) r where
  ledger := h.ledger
  okIff := h.okIff
  targets := h.targets.cons _
  noLookup := h.noLookup
  reached fd hfd := by
    obtain ⟨k, addr', peer, hk, hs, hl, hp, hu⟩ := h.reached fd hfd
    refine ⟨k + 1, addr', peer, by simpa using hk, ?_, hl, ?_, hu⟩
    · rw [← Nat.add_assoc, Nat.add_right_comm]; exact hs
    · rw [← Nat.add_assoc, Nat.add_right_comm]; exact hp

theorem attemptTrace_of_connected {a : Attempt} (h : (connectWithTimeout a).2 = true) (fd : Fd)
    (addr : Sockaddr) : attemptTrace a fd addr = [.socket fd, .connect fd addr] := by
  have : (connectWithTimeout a).1 = true := by
    revert h
    unfold connectWithTimeout
    split
    · exact fun h => h
    · split <;> exact fun _ => rfl
  simp [attemptTrace, this]

theorem connectLoop_spec (list : List Sockaddr) : ∀ i,
    LoopSpec attempt i list (connectLoop false attempt i list) := by
  induction list with
  | nil => intro i; exact .nothing (by decide)
  | cons addr list ih =>
    intro i
    unfold connectLoop
    split
    · exact .nothing (by decide)
    simp only
    split
    · exact (ih (i + 1)).skip addr
    rename_i fd hfd
    split
    · rename_i hup
      rw [attemptTrace_of_connected hup]
      split
      · exact ⟨fun held => by simp [SecureProxy.ledger], by simp, List.sublist_append_left [addr] list, rfl,
          by simp⟩
      · rename_i hpeer
        refine ⟨fun held => rfl, by simp, List.sublist_append_left [addr] list, rfl, fun fd' h => ?_⟩
        cases h
        simp only [peerRefused, Bool.not_false, Bool.true_and] at hpeer
        split at hpeer
        · exact absurd rfl hpeer
        · rename_i peer hp
          exact ⟨0, addr, peer, rfl, hfd, rfl, hp, by simpa using hpeer⟩
    · exact (ih (i + 1)).giveUp _ fd addr

end Loop

/-! ## `origin_connect` -/

/-- What a call of `origin_connect` for `host` guarantees. -/
structure OriginConnectSpec (env : ConnectEnv) (host : List Byte) (r : ConnectResult) : Prop where
  /-- `connect` only for a host that is no local name, on an address of the
  one answer used, every address of which is safe. -/
  safe : ∀ fd addr, .connect fd addr ∈ r.trace → hostnameIsLocalName host = false ∧
    ∃ list, env.answer = some list ∧ addr ∈ list ∧ ∀ a ∈ list, addressIsUnsafe a = false
  /-- One DNS lookup at most. -/
  dnsOnce : r.trace.countP ConnEvent.isDnsLookup ≤ 1
  /-- Addresses of that answer are tried, in order. -/
  inOrder : (connectTargets r.trace).Sublist (env.answer.getD [])
  okIff : r.status = .ok ↔ r.outFd.isSome
  /-- The socket handed out is the only one left open; it was connected to
  an address of the answer, and its peer is safe. -/
  onOk : ∀ fd, r.outFd = some fd → ledger [] r.trace = some [fd] ∧
    ∃ list k addr peer, env.answer = some list ∧ list[k]? = some addr ∧
      (env.attempt k).socket = some fd ∧ r.trace.getLast? = some (.connect fd addr) ∧
      (env.attempt k).peer = some peer ∧ addressIsUnsafe peer = false
  /-- Otherwise every socket opened has been closed. -/
  onFail : r.status ≠ .ok → r.outFd = none ∧ ledger [] r.trace = some []

theorem OriginConnectSpec.refused {env : ConnectEnv} {host : List Byte} {status : FetchStatus}
    {trace : List ConnEvent} (h : status ≠ .ok) (ht : ∀ e ∈ trace, ∃ b h p, e = .getaddrinfo b h p)
    (hd : trace.countP ConnEvent.isDnsLookup ≤ 1) : OriginConnectSpec env host ⟨status, none, trace⟩ := by
  have hl : ledger [] trace = some [] := by
    clear hd
    induction trace with
    | nil => rfl
    | cons e es ih =>
      obtain ⟨b, h, p, rfl⟩ := ht e (by simp)
      exact ih fun e he => ht e (by simp [he])
  have hc : connectTargets trace = [] := by
    simp only [connectTargets, List.filterMap_eq_nil_iff]
    intro e he
    obtain ⟨b, h, p, rfl⟩ := ht e he
    rfl
  refine ⟨fun fd addr hm => ?_, hd, hc ▸ List.nil_sublist _, by simp [h], by simp, fun _ => ⟨rfl, hl⟩⟩
  obtain ⟨b, h, p, he⟩ := ht _ hm
  cases he

theorem mem_lookups {env : ConnectEnv} {host : List Byte} {port : Nat} :
    ∀ e ∈ env.lookups host port, ∃ b h p, e = .getaddrinfo b h p := by
  intro e he
  simp only [ConnectEnv.lookups, List.mem_cons] at he
  rcases he with rfl | he
  · exact ⟨_, _, _, rfl⟩
  · split at he
    · simp only [List.mem_singleton] at he
      exact ⟨_, _, _, he⟩
    · simp at he

theorem countP_lookups_le {env : ConnectEnv} {host : List Byte} {port : Nat} :
    (env.lookups host port).countP ConnEvent.isDnsLookup ≤ 1 := by
  unfold ConnectEnv.lookups
  split <;> simp [ConnEvent.isDnsLookup]

/-- **`origin_connect` is safe**, for every host, every answer of the
resolver and every outcome of the socket calls. -/
theorem originConnect_spec (env : ConnectEnv) (host : List Byte) (port : Nat) :
    OriginConnectSpec env host (originConnect false env host port) := by
  unfold originConnect
  split
  · exact .refused (by decide) (by simp) (by simp)
  rename_i hlocal
  split
  · exact .refused (by decide) mem_lookups countP_lookups_le
  · exact .refused (by decide) mem_lookups countP_lookups_le
  rename_i list _ hans
  split
  · exact .refused (by decide) mem_lookups countP_lookups_le
  rename_i hsafe
  have hsafe : ∀ a ∈ list, addressIsUnsafe a = false := by
    simpa [allAddressesSafe] using hsafe
  have hloop : LoopSpec env.attempt 0 list (connectLoop false env.attempt 0 list) := connectLoop_spec list 0
  have hlook : OriginConnectSpec env host ⟨.errDns, none, env.lookups host port⟩ :=
    .refused (by decide) mem_lookups countP_lookups_le
  have hled : ledger [] (env.lookups host port) = some [] := (hlook.onFail FetchStatus.noConfusion).2
  have hall : ∀ held, ledger [] (env.lookups host port ++ held) = ledger [] held := fun held => by
    rw [ledger_append, hled]; rfl
  refine ⟨fun fd addr hm => ⟨by simpa using hlocal, list, hans, ?_, hsafe⟩, ?_, ?_, hloop.okIff,
    fun fd hfd => ⟨?_, ?_⟩, fun hne => ?_⟩
  · rcases List.mem_append.1 hm with hm | hm
    · obtain ⟨_, _, _, he⟩ := mem_lookups _ hm
      cases he
    · exact hloop.targets.subset (List.mem_filterMap.2 ⟨_, hm, rfl⟩)
  · simpa [hloop.noLookup] using countP_lookups_le
  · have : connectTargets (env.lookups host port) = [] := by
      unfold ConnectEnv.lookups
      split <;> rfl
    have happ : connectTargets (env.lookups host port ++ (connectLoop false env.attempt 0 list).trace) =
        connectTargets (env.lookups host port) ++ connectTargets (connectLoop false env.attempt 0 list).trace :=
      List.filterMap_append
    rw [happ, this, hans]
    exact hloop.targets
  · rw [hall, hloop.ledger, hfd]; rfl
  · obtain ⟨k, addr, peer, hk, hs, hl, hp, hu⟩ := hloop.reached fd hfd
    rw [Nat.zero_add] at hs hp
    exact ⟨list, k, addr, peer, hans, hk, hs, by rw [List.getLast?_append, hl]; rfl, hp, hu⟩
  · have hfd : (connectLoop false env.attempt 0 list).outFd = none := by
      simpa using mt hloop.okIff.2 hne
    exact ⟨hfd, by rw [hall, hloop.ledger, hfd]; rfl⟩

end SecureProxy
