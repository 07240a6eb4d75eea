/-
The response cache (`cache.c`): a table of slots, a logical clock, and the
usage counters the bounds are checked on. Each operation is what runs under
`g_mutex`; `now` is the clock it reads and `alloc` whether its `malloc` (or
`calloc`) succeeds.

`g_entries` is the list of its slots, with `enabled` for "not NULL". The
counters, the clock and the sums of sizes are 64-bit; the statistics are
counted in `Nat`. A key is a C string. What may be cached is decided in
`SecureProxy.CacheEligibility`.
-/
import SecureProxy.Lib.Bytes
import SecureProxy.Lib.Slots
import SecureProxy.Lib.Word

namespace SecureProxy

open Bytes Word Slots

def cacheMaxTtlSeconds : Nat := 3600
def cacheKeyMax : Nat := 2400
def cacheDefaultMaxEntries : Nat := 128
def cacheDefaultMaxTotalBytes : Nat := 8 * 1024 * 1024
def cacheDefaultMaxEntryBytes : Nat := 256 * 1024

/-- A slot; `data = none` means it is free. -/
structure CacheEntry where
  key : List Byte
  data : Option (List Byte)
  len : Nat
  expires : Int
  lastUsed : Nat
  deriving DecidableEq, Repr

/-- A zeroed slot. -/
def CacheEntry.zero : CacheEntry := ⟨[], none, 0, 0, 0⟩

def CacheEntry.live (e : CacheEntry) : Bool := e.data.isSome

/-- What `remove_entry_locked` makes of a slot. -/
def CacheEntry.freed (e : CacheEntry) : CacheEntry := { e with key := [], data := none, len := 0 }

structure CacheStats where
  hits : Nat := 0
  misses : Nat := 0
  stores : Nat := 0
  evictions : Nat := 0
  rejected : Nat := 0
  deriving DecidableEq, Repr

/-- The globals of the module, zeroed when the program starts. -/
structure CacheState where
  enabled : Bool := false
  entries : List CacheEntry := []
  maxEntries : Nat := 0
  maxTotal : Nat := 0
  maxEntry : Nat := 0
  usedEntries : Nat := 0
  usedBytes : Nat := 0
  tick : Nat := 0
  stats : CacheStats := {}
  deriving DecidableEq, Repr

/-- `cache_make_key`: "host:port path" with the host lowercased through a
300-byte buffer, or `none` when it does not fit. -/
def cacheMakeKey (outLen : Nat) (host : List Byte) (port : Nat) (path : List Byte) : Option (List Byte) :=
  let lowered := (host.take 299).map toLower
  let key := lowered ++ ch ':' :: decimal port ++ ch ' ' :: path
  if key.length ≥ outLen then none else some key

/-- `cache_init`, and whether it returns 0. -/
def cacheInit (s : CacheState) (maxEntries maxTotal maxEntry : Nat) (alloc : Bool) : CacheState × Bool :=
  if maxEntries = 0 || maxTotal = 0 || maxEntry = 0 || !alloc then (s, false)
  else
    ({ enabled := true, entries := List.replicate maxEntries .zero, maxEntries, maxTotal, maxEntry,
       usedEntries := 0, usedBytes := 0, tick := 0, stats := {} }, true)

/-- `cache_destroy` keeps the clock and the statistics. -/
def cacheDestroy (s : CacheState) : CacheState :=
  { s with enabled := false, entries := [], maxEntries := 0, maxTotal := 0, maxEntry := 0,
           usedEntries := 0, usedBytes := 0 }

/-- `remove_entry_locked` on the slot at `i`. -/
def removeEntry (s : CacheState) (i : Nat) : CacheState :=
  match s.entries[i]? with
  | none => s
  | some e =>
    { s with entries := s.entries.set i e.freed, usedBytes := wsub s.usedBytes e.len,
             usedEntries := wsub s.usedEntries 1 }

/-- The scan of `evict_lru_locked`: the index and stamp of the least recently
used live slot. -/
def scanVictim (entries : List CacheEntry) : Option (Nat × Nat) :=
  leastScan CacheEntry.live CacheEntry.lastUsed entries 0 none

/-- The victim at `i` goes and is counted. -/
def evictSlot (s : CacheState) (i : Nat) : CacheState :=
  let s := removeEntry s i
  { s with stats := { s.stats with evictions := s.stats.evictions + 1 } }

/-- `evict_lru_locked`, `none` when nothing is left to evict. -/
def evictLru (s : CacheState) : Option CacheState := (scanVictim s.entries).map fun v => evictSlot s v.1

/-- `find_locked`, as the index of the slot. -/
def findLocked (entries : List CacheEntry) (key : List Byte) : Option Nat :=
  entries.findIdx? fun e => e.live && e.key == key

/-- The slot at `i` with the clock advanced and the slot stamped with it. -/
def touchEntry (s : CacheState) (i : Nat) : CacheState :=
  match s.entries[i]? with
  | none => s
  | some e => { s with entries := s.entries.set i { e with lastUsed := wadd s.tick 1 }, tick := wadd s.tick 1 }

def CacheState.hit (s : CacheState) : CacheState := { s with stats := { s.stats with hits := s.stats.hits + 1 } }
def CacheState.miss (s : CacheState) : CacheState := { s with stats := { s.stats with misses := s.stats.misses + 1 } }
def CacheState.reject (s : CacheState) : CacheState :=
  { s with stats := { s.stats with rejected := s.stats.rejected + 1 } }

/-- `cache_lookup`: the copy returned, or `none` for NULL. -/
def cacheLookup (s : CacheState) (key : List Byte) (now : Int) (alloc : Bool) : CacheState × Option (List Byte) :=
  if !s.enabled then (s, none)
  else match (findLocked s.entries key).bind fun i => s.entries[i]?.map (i, ·) with
    | none => (s.miss, none)
    | some (i, e) =>
      if e.expires ≤ now then ((removeEntry s i).miss, none)
      else if alloc then ((touchEntry s i).hit, some ((e.data.getD []).take e.len))
      else (s.miss, none)

/-- The bounds leave no room for `len` more bytes. -/
def CacheState.full (s : CacheState) (len : Nat) : Prop :=
  s.usedEntries ≥ s.maxEntries ∨ wadd s.usedBytes len > s.maxTotal

instance (s : CacheState) (len : Nat) : Decidable (s.full len) := inferInstanceAs (Decidable (_ ∨ _))

/-- The eviction loop of `cache_store`. Each turn frees a slot, so one turn
per slot and one more is fuel enough (`evictLoop_room`). -/
def evictLoop : Nat → CacheState → Nat → CacheState
  | 0, s, _ => s
  | fuel + 1, s, len =>
    if s.full len then
      match evictLru s with
      | none => s
      | some s' => evictLoop fuel s' len
    else s

/-- The key's old entry goes first. -/
def dropOld (s : CacheState) (key : List Byte) : CacheState :=
  match findLocked s.entries key with
  | none => s
  | some i => removeEntry s i

/-- `cache_store` up to the search for a free slot. -/
def makeRoom (s : CacheState) (key : List Byte) (len : Nat) : CacheState :=
  evictLoop ((dropOld s key).entries.length + 1) (dropOld s key) len

/-- The first free slot. -/
def findFree (entries : List CacheEntry) : Option Nat := entries.findIdx? fun e => !e.live

/-- Fills the free slot `i`. `snprintf` into the slot's key does not cut: the
key is shorter than the buffer. -/
def fillSlot (s : CacheState) (i : Nat) (key data : List Byte) (ttl : Nat) (now : Int) : CacheState :=
  { s with
    entries := s.entries.set i ⟨key, some data, data.length, now + ttl, wadd s.tick 1⟩
    tick := wadd s.tick 1
    usedEntries := wadd s.usedEntries 1
    usedBytes := wadd s.usedBytes data.length
    stats := { s.stats with stores := s.stats.stores + 1 } }

/-- `cache_store` may keep `len` bytes at all. -/
def CacheState.accepts (s : CacheState) (len : Nat) : Bool :=
  s.enabled && decide (len ≤ s.maxEntry) && decide (len ≤ s.maxTotal)

/-- `cache_store`, and whether it returns 0. -/
def cacheStore (s : CacheState) (key data : List Byte) (ttl : Nat) (now : Int) (alloc : Bool) : CacheState × Bool :=
  if key.length ≥ cacheKeyMax || ttl = 0 || !alloc then (s, false)
  else if !s.accepts data.length then (s.reject, false)
  else
    let s' := makeRoom s key data.length
    match findFree s'.entries with
    | some i => (fillSlot s' i key data (min ttl cacheMaxTtlSeconds) now, true)
    | none => (s'.reject, false)

/-- `cache_get_stats`: the counters, `entries` and `bytes`. -/
def cacheGetStats (s : CacheState) : CacheStats × Nat × Nat := (s.stats, s.usedEntries, s.usedBytes)

/-! ## Operations as one step -/

inductive CacheOp where
  | init (maxEntries maxTotal maxEntry : Nat) (alloc : Bool)
  | destroy
  | lookup (key : List Byte) (now : Int) (alloc : Bool)
  | store (key data : List Byte) (ttl : Nat) (now : Int) (alloc : Bool)
  deriving DecidableEq, Repr

/-- What an operation returns: the copy of a lookup, the code of the others. -/
inductive CacheRet where
  | none
  | code (ok : Bool)
  | copy (data : Option (List Byte))
  deriving DecidableEq, Repr

def cacheStep (s : CacheState) : CacheOp → CacheState × CacheRet
  | .init n t e alloc => let (s, ok) := cacheInit s n t e alloc; (s, .code ok)
  | .destroy => (cacheDestroy s, .none)
  | .lookup key now alloc => let (s, data) := cacheLookup s key now alloc; (s, .copy data)
  | .store key data ttl now alloc => let (s, ok) := cacheStore s key data ttl now alloc; (s, .code ok)

end SecureProxy
