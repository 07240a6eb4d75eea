/-
The reputation module (`reputation.c`): the privacy gate `normalise_host`,
the result cache, and `reputation_check` cut into the critical sections it
runs under `g_mutex`. How calls, helper threads and their sections interleave
is `SecureProxy.ReputationSystem`.

A provider answers with an integer, which the code does not trust to be a
verdict. The logical clock of the cache is a `Nat`.
-/
import SecureProxy.Parser

namespace SecureProxy

open Bytes

def repHostMax : Nat := 253
def reputationMaxInflight : Nat := 16
def reputationCacheEntries : Nat := 256
def reputationNegativeTtlSeconds : Nat := 5

inductive ReputationVerdict where
  | safe
  | suspicious
  | malicious
  | unavailable
  deriving DecidableEq, Repr

inductive ReputationReason where
  | ok
  | cache
  | timeout
  | error
  | saturated
  | badInput
  deriving DecidableEq, Repr

structure ReputationResult where
  verdict : ReputationVerdict
  reason : ReputationReason
  deriving DecidableEq, Repr

def reputationVerdictName : ReputationVerdict → String
  | .safe => "safe"
  | .suspicious => "suspicious"
  | .malicious => "malicious"
  | .unavailable => "unavailable"

def reputationReasonName : ReputationReason → String
  | .ok => "ok"
  | .cache => "cache"
  | .timeout => "timeout"
  | .error => "error"
  | .saturated => "saturated"
  | .badInput => "bad_input"

/-- The verdict a provider's answer stands for, if it is one. -/
def ReputationVerdict.ofInt? : Int → Option ReputationVerdict
  | 0 => some .safe
  | 1 => some .suspicious
  | 2 => some .malicious
  | 3 => some .unavailable
  | _ => none

/-- `strstr(s, "..") != NULL`. -/
def hasDoubleDot : List Byte → Bool
  | a :: b :: s => (a == ch '.' && b == ch '.') || hasDoubleDot (b :: s)
  | _ => false

/-- `normalise_host`: lowercase, without ONE trailing dot, and only if it is
a bare hostname. -/
def normaliseHost (host : List Byte) : Option (List Byte) :=
  let name := if host.getLast? = some (ch '.') then host.dropLast else host
  if name.isEmpty || decide (name.length > repHostMax) then none
  else if name.any fun c => !isHostByte c then none
  else
    let out := name.map toLower
    if out.head? = some (ch '.') || hasDoubleDot out then none else some out

/-! ## The result cache -/

structure RepEntry where
  host : List Byte
  verdict : ReputationVerdict
  expires : Int
  lastUsed : Nat
  used : Bool
  deriving DecidableEq, Repr

/-- A zeroed slot. -/
def RepEntry.zero : RepEntry := ⟨[], .safe, 0, 0, false⟩

/-- `cache_find`, as the index of the slot. -/
def cacheFind (cache : List RepEntry) (host : List Byte) : Option Nat :=
  cache.findIdx? fun e => e.used && e.host == host

/-- The loop of `cache_put` for a host without a slot: the first free slot,
else the least recently used one. `best` is the index and stamp of `slot`. -/
def cachePutSlot : List RepEntry → Nat → Option (Nat × Nat) → Option Nat
  | [], _, best => best.map (·.1)
  | e :: es, i, best =>
    if !e.used then some i
    else cachePutSlot es (i + 1) (if best.all fun b => decide (e.lastUsed < b.2) then some (i, e.lastUsed) else best)

structure ReputationStats where
  lookups : Nat := 0
  providerCalls : Nat := 0
  cacheHits : Nat := 0
  timeouts : Nat := 0
  errors : Nat := 0
  saturated : Nat := 0
  rejectedInput : Nat := 0
  safe : Nat := 0
  suspicious : Nat := 0
  malicious : Nat := 0
  unavailable : Nat := 0
  deriving DecidableEq, Repr

/-- The globals of the module. A provider is known by a number, `none` for a
zeroed `g_provider`. -/
structure RepState where
  enabled : Bool := false
  provider : Option Nat := none
  timeoutMs : Nat := 1500
  ttlSeconds : Nat := 300
  cache : List RepEntry := List.replicate reputationCacheEntries .zero
  tick : Nat := 0
  inflight : Nat := 0
  stats : ReputationStats := {}
  deriving DecidableEq, Repr

/-- `reputation_init`, whose arguments are valid. -/
def reputationInit (g : RepState) (provider timeoutMs ttlSeconds : Nat) : RepState :=
  { g with enabled := true, provider := some provider, timeoutMs, ttlSeconds, tick := 0, stats := {},
           cache := List.replicate reputationCacheEntries .zero }

def reputationShutdown (g : RepState) : RepState := { g with enabled := false, provider := none }

/-- `cache_put`. -/
def cachePut (g : RepState) (host : List Byte) (v : ReputationVerdict) (ttl : Nat) (now : Int) : RepState :=
  if ttl = 0 then g
  else match (cacheFind g.cache host).orElse fun _ => cachePutSlot g.cache 0 none with
    | none => g
    | some i =>
      { g with cache := g.cache.set i ⟨host, v, now + ttl, g.tick + 1, true⟩, tick := g.tick + 1 }

/-! ## The critical sections of `reputation_check` -/

/-- What the first section leaves its caller with. -/
inductive Entered where
  | done (res : ReputationResult)
  /-- A slot is reserved: call `provider` about `norm`. -/
  | reserved (norm : List Byte) (provider : Option Nat) (timeoutMs ttl : Nat)
  deriving DecidableEq, Repr

/-- From the first lock to its unlock. -/
def checkEnter (g : RepState) (host : List Byte) (now : Int) : RepState × Entered :=
  let s := { g.stats with lookups := g.stats.lookups + 1 }
  if !g.enabled then
    ({ g with stats := { s with errors := s.errors + 1, unavailable := s.unavailable + 1 } },
      .done ⟨.unavailable, .error⟩)
  else match normaliseHost host with
    | none =>
      ({ g with stats := { s with rejectedInput := s.rejectedInput + 1, unavailable := s.unavailable + 1 } },
        .done ⟨.unavailable, .badInput⟩)
    | some norm =>
      match (cacheFind g.cache norm).bind fun i => g.cache[i]?.map (i, ·) with
      | some (i, hit) =>
        if hit.expires > now then
          let s := { s with cacheHits := s.cacheHits + 1 }
          ({ g with cache := g.cache.set i { hit with lastUsed := g.tick + 1 }, tick := g.tick + 1,
                    stats := if hit.verdict = .unavailable then { s with unavailable := s.unavailable + 1 } else s },
            .done ⟨hit.verdict, .cache⟩)
        else reserve g s norm
      | none => reserve g s norm
where
  /-- The cache has no answer: ask the provider, if a call is free. -/
  reserve (g : RepState) (s : ReputationStats) (norm : List Byte) : RepState × Entered :=
    if g.inflight ≥ reputationMaxInflight then
      ({ g with stats := { s with saturated := s.saturated + 1, unavailable := s.unavailable + 1 } },
        .done ⟨.unavailable, .saturated⟩)
    else
      ({ g with inflight := g.inflight + 1, stats := { s with providerCalls := s.providerCalls + 1 } },
        .reserved norm g.provider g.timeoutMs g.ttlSeconds)

/-- `g_inflight--`, on an `unsigned`. -/
def releaseInflight (g : RepState) : RepState :=
  { g with inflight := if g.inflight = 0 then 2 ^ 32 - 1 else g.inflight - 1 }

/-- The section after a helper thread could not be started. -/
def checkUndo (g : RepState) : RepState :=
  let g := releaseInflight g
  { g with stats := { g.stats with errors := g.stats.errors + 1, unavailable := g.stats.unavailable + 1 } }

/-- What the caller makes of the wait: the provider's answer, or `none` if it
gave up. With the result comes how long to remember it. -/
def checkResult (answer : Option Int) (ttl : Nat) : ReputationResult × Nat :=
  match answer with
  | none => (⟨.unavailable, .timeout⟩, reputationNegativeTtlSeconds)
  | some v =>
    match ReputationVerdict.ofInt? v with
    | none | some .unavailable => (⟨.unavailable, .error⟩, reputationNegativeTtlSeconds)
    | some verdict => (⟨verdict, .ok⟩, ttl)

def countVerdict (s : ReputationStats) : ReputationVerdict → ReputationStats
  | .safe => { s with safe := s.safe + 1 }
  | .suspicious => { s with suspicious := s.suspicious + 1 }
  | .malicious => { s with malicious := s.malicious + 1 }
  | .unavailable => { s with unavailable := s.unavailable + 1 }

def countReason (s : ReputationStats) : ReputationReason → ReputationStats
  | .timeout => { s with timeouts := s.timeouts + 1 }
  | .error => { s with errors := s.errors + 1 }
  | _ => s

/-- The last section: store the result and count it. -/
def checkFinish (g : RepState) (norm : List Byte) (res : ReputationResult) (cacheTtl : Nat) (now : Int) : RepState :=
  let g := if g.enabled then cachePut g norm res.verdict cacheTtl now else g
  { g with stats := countReason (countVerdict g.stats res.verdict) res.reason }

end SecureProxy
