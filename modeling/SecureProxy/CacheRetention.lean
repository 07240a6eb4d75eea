/-
How long a response stays in the cache. Least-recently-used eviction is meant
to keep what is in use: where the keys a run uses fit the bounds together, no
store of the run pushes one of them out, however many stores and lookups there
are and whatever else the table held before. A body stored under one of them
is then returned until it expires.

The fact carried along a run is where the body stands in the recency order:
all that stands in front of it was used since, so it belongs to those keys.
-/
import SecureProxy.CacheInvariant

namespace SecureProxy

open Bytes Word Slots Lru Machine

/-! ## Keys in use -/

/-- The keys a run uses, with the largest body each is given. -/
structure WorkingSet where
  keys : Finset (List Byte)
  cap : List Byte → Nat

namespace WorkingSet

/-- An entry of the set, within its cap. -/
def Holds (w : WorkingSet) (e : CacheEntry) : Prop := e.key ∈ w.keys ∧ e.len ≤ w.cap e.key

/-- All of the set has room in the cache at once, and what is held of it
already is within its caps. -/
structure FitsIn (w : WorkingSet) (s : CacheState) : Prop where
  count : w.keys.card ≤ s.maxEntries
  bytes : ∑ k ∈ w.keys, w.cap k ≤ s.maxTotal
  held : ∀ e ∈ s.entries, e.live = true → e.key ∈ w.keys → e.len ≤ w.cap e.key

/-- An operation of a run that uses the set: `cache_init` and
`cache_destroy` are not among them. -/
def Uses (w : WorkingSet) : CacheOp → Prop
  | .init .. | .destroy => False
  | .lookup key _ _ => key ∈ w.keys
  | .store key data _ _ _ => key ∈ w.keys ∧ data.length ≤ w.cap key

end WorkingSet

/-- An operation that neither replaces a key nor reads it once expired. -/
def CacheOp.Spares (key : List Byte) (expires : Int) : CacheOp → Prop
  | .init .. | .destroy => True
  | .lookup k now _ => k = key → now < expires
  | .store k _ _ _ _ => k ≠ key

/-! ## Where the body stands -/

/-- The body is held, and what is ahead of it in the order is of the set. -/
structure Retains (w : WorkingSet) (key data : List Byte) (expires : Int) (s : CacheState)
    (front : List CacheEntry) (e : CacheEntry) (back : List CacheEntry) : Prop where
  tracks : Tracks s (front ++ e :: back)
  enabled : s.enabled = true
  entry : e.key = key ∧ e.data = some data ∧ e.expires = expires
  ahead : ∀ x ∈ front ++ [e], w.Holds x
  behind : ∀ x ∈ back, x.key ∈ w.keys → x.len ≤ w.cap x.key
  count : w.keys.card ≤ s.maxEntries
  bytes : ∑ k ∈ w.keys, w.cap k ≤ s.maxTotal

namespace Retains

variable {w : WorkingSet} {key data k : List Byte} {expires : Int} {s s' : CacheState}
  {front front' back back' : List CacheEntry} {e x : CacheEntry}

/-- Whatever of the set is held is within its cap. -/
theorem held (h : Retains w key data expires s front e back) (hx : x ∈ front ++ e :: back) (hk : x.key ∈ w.keys) :
    w.Holds x := by
  simp only [List.mem_append, List.mem_cons] at hx
  rcases hx with hx | rfl | hx
  · exact h.ahead x (by simp [hx])
  · exact h.ahead x (by simp)
  · exact ⟨hk, h.behind x hx hk⟩

/-- The stamp of the body may change, and the entries around it, if those
ahead are of the set and those behind were held. -/
theorem next (h : Retains w key data expires s front e back) (hlim : SameLimits s s') (t : Nat)
    (htracks : Tracks s' (front' ++ { e with lastUsed := t } :: back')) (hahead : ∀ x ∈ front', w.Holds x)
    (hbehind : ∀ x ∈ back', x ∈ front ++ e :: back) :
    Retains w key data expires s' front' { e with lastUsed := t } back' where
  tracks := htracks
  enabled := hlim.enabled.trans h.enabled
  entry := h.entry
  ahead := by
    simp only [List.mem_append, List.mem_singleton]
    rintro x (hx | rfl)
    · exact hahead x hx
    · exact h.ahead e (by simp)
  behind x hx hk := (h.held (hbehind x hx) hk).2
  count := hlim.maxEntries ▸ h.count
  bytes := hlim.maxTotal ▸ h.bytes

/-- Only the counters change. -/
theorem withStats (h : Retains w key data expires s front e back) (stats : CacheStats) :
    Retains w key data expires { s with stats } front e back :=
  ⟨h.tracks.withStats stats, h.enabled, h.entry, h.ahead, h.behind, h.count, h.bytes⟩

/-- No other entry has the key. -/
theorem eq_of_key (h : Retains w key data expires s front e back) (horder : front ++ e :: back = front' ++ x :: back')
    (hk : x.key = key) : x = e := by
  have hkeys := h.tracks.keys
  have hfind := find_middle hkeys
  rw [horder] at hfind hkeys
  rw [h.entry.1, ← hk, find_middle hkeys] at hfind
  exact Option.some.inj hfind

/-- Taking another key out leaves the body where it is. -/
theorem remove_split (h : Retains w key data expires s front e back) (hk : k ≠ key) :
    Lru.remove CacheEntry.key k (front ++ e :: back) =
      Lru.remove CacheEntry.key k front ++ e :: Lru.remove CacheEntry.key k back := by
  have hne : e.key ≠ k := by
    rw [h.entry.1]
    exact hk.symm
  simp [Lru.remove, hne]

theorem mem_remove {l : List CacheEntry} (hx : x ∈ Lru.remove CacheEntry.key k l) : x ∈ l := List.mem_of_mem_filter hx

/-- A new entry of the set has room beside the body and what is ahead of it. -/
theorem room (h : Retains w key data expires s front e back) (hk : k ≠ key) {len : Nat} (hw : k ∈ w.keys)
    (hlen : len ≤ w.cap k) :
    Fits CacheEntry.len s.maxEntries s.maxTotal len (Lru.remove CacheEntry.key k front ++ [e]) := by
  -- the entry to come: only its key and its size are looked at
  obtain ⟨new, rfl, rfl⟩ : ∃ new : CacheEntry, new.key = k ∧ new.len = len := ⟨⟨k, none, len, 0, 0⟩, rfl, rfl⟩
  have hsub : (Lru.remove CacheEntry.key new.key front ++ [e]).Sublist (front ++ e :: back) :=
    (List.filter_sublist).append (by simp)
  have hkeys : (new :: (Lru.remove CacheEntry.key new.key front ++ [e])).Pairwise fun a b => a.key ≠ b.key := by
    refine List.pairwise_cons.2 ⟨fun x hx => ?_, h.tracks.keys.sublist hsub⟩
    simp only [Lru.remove, List.mem_append, List.mem_filter, decide_eq_true_eq, List.mem_singleton] at hx
    rcases hx with ⟨-, hx⟩ | rfl
    · exact hx.symm
    · rw [h.entry.1]
      exact hk
  have hholds : ∀ x ∈ new :: (Lru.remove CacheEntry.key new.key front ++ [e]), w.Holds x := by
    refine List.forall_mem_cons.2 ⟨⟨hw, hlen⟩, fun x hx => h.ahead x ?_⟩
    simp only [List.mem_append] at hx ⊢
    exact hx.imp_left mem_remove
  have hcount := (length_le_card hkeys fun x hx => (hholds x hx).1).trans h.count
  have hbytes := (total_le_sum hkeys hholds).trans h.bytes
  rw [List.length_cons] at hcount
  rw [total_cons] at hbytes
  exact ⟨by omega, by omega⟩

end Retains

/-- The body stands somewhere in the order. -/
def Retained (w : WorkingSet) (key data : List Byte) (expires : Int) (s : CacheState) : Prop :=
  ∃ front e back, Retains w key data expires s front e back

/-! ## One operation -/

section

variable {w : WorkingSet} {key data : List Byte} {expires : Int} {s : CacheState}

/-- A lookup of the body: it is fresh, and a hit puts it in front of all. -/
theorem cacheLookup_retains_own {now : Int} {front back : List CacheEntry} {e : CacheEntry}
    (h : Retains w key data expires s front e back) (ht : s.tick + 1 < wordSize) (hnow : now < expires) (alloc : Bool) :
    Retained w key data expires (cacheLookup s key now alloc).1 := by
  rcases cacheLookup_cases h.tracks h.enabled key now alloc with ⟨-, heq⟩ | ⟨i, e', front', back', hi, horder, hk, hcase⟩
  · rw [heq]
    exact ⟨front, e, back, h.withStats _⟩
  obtain rfl := h.eq_of_key horder hk
  have hfresh : now < e'.expires := by
    rw [h.entry.2.2]
    exact hnow
  rcases hcase with ⟨hle, -⟩ | ⟨-, -, heq⟩ | ⟨-, -, heq⟩
  · omega
  · rw [heq]
    refine ⟨[], _, front ++ back, (h.next (touchEntry_sameLimits s i) _ (h.tracks.touch hi ht) (by simp) ?_).withStats _⟩
    intro x hx
    simp only [List.mem_append, List.mem_cons] at hx ⊢
    tauto
  · rw [heq]
    exact ⟨front, e', back, h.withStats _⟩

/-- A lookup of another key of the set moves its entry to the front, or drops
it when it has expired. -/
theorem cacheLookup_retains_other {k : List Byte} {now : Int} {front back : List CacheEntry} {e : CacheEntry}
    (h : Retains w key data expires s front e back) (ht : s.tick + 1 < wordSize) (hw : k ∈ w.keys) (hk : k ≠ key)
    (alloc : Bool) : Retained w key data expires (cacheLookup s k now alloc).1 := by
  rcases cacheLookup_cases h.tracks h.enabled k now alloc with ⟨-, heq⟩ | ⟨i, e', front', back', hi, horder, rfl, hcase⟩
  · rw [heq]
    exact ⟨front, e, back, h.withStats _⟩
  have htracks := h.tracks
  rw [horder] at htracks
  have hrest : front' ++ back' = Lru.remove CacheEntry.key e'.key front ++ e :: Lru.remove CacheEntry.key e'.key back := by
    rw [← h.remove_split hk, horder, remove_middle htracks.keys]
  have hback : ∀ x ∈ Lru.remove CacheEntry.key e'.key back, x ∈ front ++ e :: back := by
    intro x hx
    simp [Retains.mem_remove hx]
  have hahead : ∀ x ∈ Lru.remove CacheEntry.key e'.key front, w.Holds x := by
    intro x hx
    exact h.ahead x (by simp [Retains.mem_remove hx])
  rcases hcase with ⟨-, heq⟩ | ⟨-, -, heq⟩ | ⟨-, -, heq⟩
  · have hremove := htracks.remove hi
    rw [hrest] at hremove
    rw [heq]
    exact ⟨_, _, _, (h.next (removeEntry_sameLimits s i) e.lastUsed hremove hahead hback).withStats _⟩
  · have htouch := htracks.touch hi ht
    rw [hrest, ← List.cons_append] at htouch
    rw [heq]
    refine ⟨_, _, _, (h.next (touchEntry_sameLimits s i) e.lastUsed htouch ?_ hback).withStats _⟩
    have hholds : w.Holds e' := h.held (by simp [horder]) hw
    exact List.forall_mem_cons.2 ⟨hholds, hahead⟩
  · rw [heq]
    exact ⟨front, e, back, h.withStats _⟩

theorem cacheLookup_retained {k : List Byte} {now : Int} (h : Retained w key data expires s)
    (ht : s.tick + 1 < wordSize) (hw : k ∈ w.keys) (hspare : k = key → now < expires) (alloc : Bool) :
    Retained w key data expires (cacheLookup s k now alloc).1 := by
  obtain ⟨front, e, back, h⟩ := h
  by_cases hk : k = key
  · subst hk
    exact cacheLookup_retains_own h ht (hspare rfl) alloc
  · exact cacheLookup_retains_other h ht hw hk alloc

/-- The limits a store leaves. -/
theorem StoreRoom.sameLimits {order : List CacheEntry} {k d : List Byte} {i : Nat} (h : StoreRoom s order k d i)
    (ttl : Nat) (now : Int) : SameLimits s (fillSlot (makeRoom s k d.length) i k d ttl now) := by
  have hlim := (dropOld_frame s k).1.trans h.evicted.limits
  exact ⟨hlim.1, hlim.2, hlim.3, hlim.4⟩

/-- A store under another key of the set evicts from behind the body. -/
theorem cacheStore_retained {k d : List Byte} (h : Retained w key data expires s) (ht : s.tick + 1 < wordSize)
    (hwrap : s.accepts d.length = true → (dropOld s k).usedBytes + d.length < wordSize) (hw : k ∈ w.keys)
    (hcap : d.length ≤ w.cap k) (hk : k ≠ key) (ttl : Nat) (now : Int) (alloc : Bool) :
    Retained w key data expires (cacheStore s k d ttl now alloc).1 := by
  obtain ⟨front, e, back, h⟩ := h
  rcases cacheStore_cases h.tracks k d ttl now alloc hwrap with ⟨-, heq⟩ | ⟨-, -, -, ⟨-, heq⟩ | ⟨hacc, i, hroom, heq⟩⟩ <;>
    rw [heq]
  · exact ⟨front, e, back, h⟩
  · exact ⟨front, e, back, h.withStats _⟩
  · have htracks := hroom.tracks hacc ht (min ttl cacheMaxTtlSeconds) now
    obtain ⟨n, hkept⟩ := shrink_keeps (h.room hk hw hcap) (Lru.remove CacheEntry.key k back)
    rw [h.remove_split hk, List.append_cons, hkept, List.append_assoc, List.singleton_append, ← List.cons_append]
      at htracks
    refine ⟨_, _, _, h.next (hroom.sameLimits _ _) e.lastUsed htracks ?_ fun x hx => ?_⟩
    · refine List.forall_mem_cons.2 ⟨⟨hw, hcap⟩, fun x hx => h.ahead x ?_⟩
      simp [Retains.mem_remove hx]
    · simp [Retains.mem_remove (List.mem_of_mem_take hx)]

theorem cacheStep_retained {op : CacheOp} (h : Retained w key data expires s)
    (hop : op.NoWrap s ∧ w.Uses op ∧ op.Spares key expires) : Retained w key data expires (cacheStep s op).1 := by
  obtain ⟨hwrap, huses, hspare⟩ := hop
  cases op with
  | init | destroy => exact huses.elim
  | lookup k now alloc => exact cacheLookup_retained h hwrap huses hspare alloc
  | store k d ttl now alloc => exact cacheStore_retained h hwrap.1 hwrap.2 huses.1 huses.2 hspare ttl now alloc

/-- The store itself puts the body in front of all. -/
theorem cacheStore_retains {order : List CacheEntry} {ttl : Nat} {now : Int} {alloc : Bool} (h : Tracks s order)
    (hop : (CacheOp.store key data ttl now alloc).NoWrap s) (huses : w.Uses (.store key data ttl now alloc))
    (hfits : w.FitsIn s) (hok : (cacheStore s key data ttl now alloc).2 = true) :
    Retained w key data (now + (min ttl cacheMaxTtlSeconds : Nat)) (cacheStore s key data ttl now alloc).1 := by
  rcases cacheStore_cases h key data ttl now alloc hop.2 with ⟨-, heq⟩ | ⟨-, -, -, ⟨-, heq⟩ | ⟨hacc, i, hroom, heq⟩⟩ <;>
    rw [heq] at hok ⊢
  · cases hok
  · cases hok
  · have hlim := hroom.sameLimits (min ttl cacheMaxTtlSeconds) now
    have hacc' := hacc
    simp only [CacheState.accepts, Bool.and_eq_true] at hacc'
    refine ⟨[], _, _, hroom.tracks hacc hop.1 _ now, hlim.enabled.trans hacc'.1.1, ⟨rfl, rfl, rfl⟩, ?_, ?_,
      hlim.maxEntries ▸ hfits.count, hlim.maxTotal ▸ hfits.bytes⟩
    · simp only [List.nil_append, List.mem_singleton, forall_eq]
      exact huses
    · intro x hx hk
      obtain ⟨hmem, hlive⟩ := h.recency.mem_iff.1 (Retains.mem_remove (List.mem_of_mem_take hx))
      exact hfits.held x hmem hlive hk

/-- A fresh body that stands in the order is returned. -/
theorem Retained.lookup {now : Int} (h : Retained w key data expires s) (hnow : now < expires) :
    (cacheLookup s key now true).2 = some data := by
  obtain ⟨front, e, back, h⟩ := h
  obtain ⟨hkey, hdata, hexp⟩ := h.entry
  rcases cacheLookup_cases h.tracks h.enabled key now true with ⟨hmiss, -⟩ | ⟨i, e', front', back', hi, horder, hk, hcase⟩
  · exact absurd hkey (hmiss e (by simp))
  obtain rfl := h.eq_of_key horder hk
  rcases hcase with ⟨hle, -⟩ | ⟨-, -, heq⟩ | ⟨-, hfalse, -⟩
  · omega
  · rw [heq]
    exact hdata
  · cases hfalse

end

/-! ## Whole runs -/

/-- **What is in use stays.** A body is stored in any state that a run
reaches, under one of a set of keys that fit the cache together. However long
the run then goes on with that set, a lookup before the expiry returns the
body, unless the run itself stores another under the key. -/
theorem cacheRun_retains {w : WorkingSet} {before ops : List CacheOp} {key data : List Byte} {ttl : Nat} {now now' : Int}
    {alloc : Bool} (hb : ∀ op ∈ before ++ ops, op.Bounded) (hlen : before.length + ops.length + 1 < 2 ^ 64)
    (hfits : w.FitsIn (run cacheStep {} before))
    (hok : (cacheStore (run cacheStep {} before) key data ttl now alloc).2 = true)
    (huses : ∀ op ∈ CacheOp.store key data ttl now alloc :: ops, w.Uses op)
    (hspares : ∀ op ∈ ops, op.Spares key (now + (min ttl cacheMaxTtlSeconds : Nat)))
    (hnow : now' < now + (min ttl cacheMaxTtlSeconds : Nat)) :
    (cacheLookup (run cacheStep {} (before ++ .store key data ttl now alloc :: ops)) key now' true).2 = some data := by
  have hbounded : ∀ op ∈ before ++ CacheOp.store key data ttl now alloc :: ops, op.Bounded := by
    intro op hop
    simp only [List.mem_append, List.mem_cons] at hop
    rcases hop with hop | rfl | hop
    · exact hb op (by simp [hop])
    · trivial
    · exact hb op (by simp [hop])
  obtain ⟨halong, -⟩ := along_noWrap (k := 0) ⟨[], Tracks.zero⟩ (by decide) (Nat.le_refl _)
    (by simp only [List.length_append, List.length_cons]; omega) hbounded
  obtain ⟨hbefore, hstore, hrest⟩ := along_append.1 halong
  obtain ⟨order, htracks⟩ : ∃ order, Tracks (run cacheStep {} before) order :=
    run_invariant (fun _ _ => cacheStep_tracks) ⟨[], Tracks.zero⟩ hbefore
  have hstart := cacheStore_retains htracks hstore (huses _ (List.mem_cons_self ..)) hfits hok
  have hafter := hrest.and_forall fun op hop => And.intro (huses op (List.mem_cons_of_mem _ hop)) (hspares op hop)
  rw [run_append]
  exact (run_invariant (fun _ _ => cacheStep_retained) hstart hafter).lookup hnow

/-- Two keys in a cache of two: the second is stored again and again, and the
first, never looked up, is still there. A third entry of before goes. -/
theorem cacheRun_retains_pair :
    let before : List CacheOp := [.init 2 8 4 true, .store (bytes "old") (bytes "x") 60 0 true]
    let ops : List CacheOp := [.store (bytes "b") (bytes "two") 60 1 true, .store (bytes "b") (bytes "four") 60 2 true,
      .lookup (bytes "b") 3 true, .store (bytes "b") (bytes "two") 60 4 true]
    (cacheLookup (run cacheStep {} (before ++ .store (bytes "a") (bytes "one") 60 0 true :: ops)) (bytes "a") 59 true).2 =
      some (bytes "one") :=
  cacheRun_retains (w := ⟨{bytes "a", bytes "b"}, fun _ => 4⟩) (by simp [CacheOp.Bounded]) (by decide)
    ⟨by decide, by decide, by decide⟩ (by decide) (by simp [WorkingSet.Uses, bytes])
    (by simp [CacheOp.Spares, bytes, ch]) (by decide)

end SecureProxy
