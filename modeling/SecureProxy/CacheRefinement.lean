/-
What the response cache is for: a list of (key, bytes, expiry), most recently
used first. The slots, the logical clock and the scan for the smallest stamp
of `cache.c` are one way to keep such a list, and every run of the module
answers as the list does.
-/
import SecureProxy.CacheInvariant

namespace SecureProxy

open Bytes Word Slots Lru Machine

/-! ## The abstract cache -/

structure LruItem where
  key : List Byte
  data : List Byte
  expires : Int
  deriving DecidableEq, Repr

def LruItem.size (it : LruItem) : Nat := it.data.length

structure LruLimits where
  maxEntries : Nat
  maxTotal : Nat
  maxEntry : Nat
  deriving DecidableEq, Repr

/-- `limits` is `none` while there is no cache. -/
structure LruCache where
  limits : Option LruLimits := none
  items : List LruItem := []
  stats : CacheStats := {}
  deriving DecidableEq, Repr

/-- A fresh hit moves to the front, an expired one goes. -/
def LruCache.lookup (m : LruCache) (key : List Byte) (now : Int) : LruCache × Option (List Byte) :=
  match m.limits with
  | none => (m, none)
  | some _ =>
    match find LruItem.key key m.items with
    | none => ({ m with stats := { m.stats with misses := m.stats.misses + 1 } }, none)
    | some it =>
      let rest := remove LruItem.key key m.items
      if it.expires ≤ now then
        ({ m with items := rest, stats := { m.stats with misses := m.stats.misses + 1 } }, none)
      else ({ m with items := it :: rest, stats := { m.stats with hits := m.stats.hits + 1 } }, some it.data)

/-- The key's old item goes, then the shortest suffix that makes room. -/
def LruCache.store (m : LruCache) (key data : List Byte) (ttl : Nat) (now : Int) : LruCache × Bool :=
  if cacheKeyMax ≤ key.length ∨ ttl = 0 then (m, false)
  else
    let rejected := { m with stats := { m.stats with rejected := m.stats.rejected + 1 } }
    match m.limits with
    | none => (rejected, false)
    | some lim =>
      if lim.maxEntry < data.length ∨ lim.maxTotal < data.length then (rejected, false)
      else
        let rest := remove LruItem.key key m.items
        let kept := shrink LruItem.size lim.maxEntries lim.maxTotal data.length rest
        ({ m with
            items := ⟨key, data, now + min ttl cacheMaxTtlSeconds⟩ :: kept
            stats := { m.stats with
              stores := m.stats.stores + 1
              evictions := m.stats.evictions + (rest.length - kept.length) } }, true)

def lruStep (m : LruCache) : CacheOp → LruCache × CacheRet
  | .init n t e _ =>
    if n = 0 ∨ t = 0 ∨ e = 0 then (m, .code false) else ({ limits := some ⟨n, t, e⟩ }, .code true)
  | .destroy => ({ m with limits := none, items := [] }, .none)
  | .lookup key now _ => let (m, data) := m.lookup key now; (m, .copy data)
  | .store key data ttl now _ => let (m, ok) := m.store key data ttl now; (m, .code ok)

/-- The counters, and how many items and bytes the list holds. -/
def LruCache.getStats (m : LruCache) : CacheStats × Nat × Nat := (m.stats, m.items.length, total LruItem.size m.items)

/-! ## The slots keep such a list -/

/-- The item a live slot holds. -/
def CacheEntry.item (e : CacheEntry) : LruItem := ⟨e.key, e.data.getD [], e.expires⟩

/-- The list a state stands for, given the order of its slots. -/
def lruOf (s : CacheState) (order : List CacheEntry) : LruCache where
  limits := if s.enabled then some ⟨s.maxEntries, s.maxTotal, s.maxEntry⟩ else none
  items := order.map CacheEntry.item
  stats := s.stats

/-- The cache keeps the list `m`. -/
def Keeps (s : CacheState) (m : LruCache) : Prop := ∃ order, Tracks s order ∧ m = lruOf s order

section

variable {s : CacheState} {order : List CacheEntry}

theorem Tracks.item_size (h : Tracks s order) : ∀ e ∈ order, LruItem.size e.item = e.len := by
  intro e he
  obtain ⟨d, hd, hlen⟩ := h.datas e he
  simp [CacheEntry.item, LruItem.size, hd, hlen]

theorem Tracks.total_items (h : Tracks s order) :
    total LruItem.size (order.map CacheEntry.item) = total CacheEntry.len order := by
  simp only [total, List.map_map]
  exact congrArg List.sum (List.map_congr_left h.item_size)

theorem getStats_lruOf (h : Tracks s order) : cacheGetStats s = (lruOf s order).getStats := by
  simp [cacheGetStats, LruCache.getStats, lruOf, h.total_items, h.usedEntries, h.usedBytes]

theorem find_items (key : List Byte) (order : List CacheEntry) :
    find LruItem.key key (order.map CacheEntry.item) = (find CacheEntry.key key order).map CacheEntry.item :=
  find_map CacheEntry.item LruItem.key key order

theorem remove_items (key : List Byte) (order : List CacheEntry) :
    Lru.remove LruItem.key key (order.map CacheEntry.item) =
      (Lru.remove CacheEntry.key key order).map CacheEntry.item :=
  remove_map CacheEntry.item LruItem.key key order

theorem shrink_items (len : Nat) {order' : List CacheEntry} (h : Tracks s order) (hsub : ∀ e ∈ order', e ∈ order) :
    shrink LruItem.size s.maxEntries s.maxTotal len (order'.map CacheEntry.item) =
      (shrink CacheEntry.len s.maxEntries s.maxTotal len order').map CacheEntry.item := by
  rw [shrink_map, shrink_congr fun e he => h.item_size e (hsub e he)]

theorem cacheInit_keeps {n t m : Nat} (h : Tracks s order) (hn : n < wordSize) (ht : t < wordSize) :
    Keeps (cacheInit s n t m true).1 (lruStep (lruOf s order) (.init n t m true)).1 ∧
      CacheRet.code (cacheInit s n t m true).2 = (lruStep (lruOf s order) (.init n t m true)).2 := by
  by_cases hz : n = 0 ∨ t = 0 ∨ m = 0
  · have hz' : (decide (n = 0) || decide (t = 0) || decide (m = 0) || !true) = true := by simpa [or_assoc] using hz
    simp only [cacheInit, lruStep, hz, hz', if_true, and_true]
    exact ⟨order, h, rfl⟩
  · have hz' : (decide (n = 0) || decide (t = 0) || decide (m = 0) || !true) = false := by
      simpa [not_or, and_assoc] using hz
    obtain ⟨order', h'⟩ := cacheInit_tracks h hn ht m true
    simp only [cacheInit, lruStep, hz, hz', if_false, Bool.false_eq_true, and_true] at h' ⊢
    have : order' = [] := List.length_eq_zero_iff.1 h'.usedEntries.symm
    subst this
    exact ⟨[], h', rfl⟩

theorem cacheLookup_keeps (h : Tracks s order) (ht : s.tick + 1 < wordSize) (key : List Byte) (now : Int) :
    Keeps (cacheLookup s key now true).1 ((lruOf s order).lookup key now).1 ∧
      (cacheLookup s key now true).2 = ((lruOf s order).lookup key now).2 := by
  cases hen : s.enabled with
  | false =>
    simp only [cacheLookup, LruCache.lookup, lruOf, hen, Bool.not_false, if_true, Bool.false_eq_true, if_false, and_true]
    exact ⟨order, h, by simp [lruOf, hen]⟩
  | true =>
    rcases cacheLookup_cases h hen key now true with ⟨hkeys, heq⟩ | ⟨i, e, front, back, hi, rfl, rfl, hcase⟩
    · have hfind : find LruItem.key key (order.map CacheEntry.item) = none := by
        rw [find_items, find_eq_none hkeys, Option.map_none]
      simp only [heq, LruCache.lookup, lruOf, hen, if_true, hfind, and_true]
      exact ⟨order, h.withStats _, by simp [lruOf, hen, CacheState.miss]⟩
    · have hfind : find LruItem.key e.key ((front ++ e :: back).map CacheEntry.item) = some e.item := by
        rw [find_items, find_middle h.keys, Option.map_some]
      have hrest : Lru.remove LruItem.key e.key ((front ++ e :: back).map CacheEntry.item) =
          (front ++ back).map CacheEntry.item := by
        rw [remove_items, remove_middle h.keys]
      have hexp : e.item.expires = e.expires := rfl
      simp only [LruCache.lookup, lruOf, hen, if_true, hfind, hrest, hexp]
      rcases hcase with ⟨hle, heq⟩ | ⟨hlt, -, heq⟩ | ⟨-, hfalse, -⟩
      · simp only [heq, hle, if_true, and_true]
        exact ⟨_, (h.remove hi).withStats _, by simp [lruOf, hen, CacheState.miss]⟩
      · obtain ⟨d, hd, -⟩ := h.datas e (by simp)
        have hgt : ¬ e.expires ≤ now := by omega
        simp only [heq, hgt, if_false]
        refine ⟨⟨_, (h.touch hi ht).withStats _, ?_⟩, by simp [CacheEntry.item, hd]⟩
        have hlim := touchEntry_sameLimits s i
        simp [lruOf, hen, CacheState.hit, hlim.enabled, hlim.maxEntries, hlim.maxTotal, hlim.maxEntry,
          touchEntry_stats, CacheEntry.item]
      · cases hfalse

theorem cacheStore_keeps (h : Tracks s order) (ht : s.tick + 1 < wordSize) {key data : List Byte}
    (hw : s.accepts data.length = true → (dropOld s key).usedBytes + data.length < wordSize) (ttl : Nat) (now : Int) :
    Keeps (cacheStore s key data ttl now true).1 ((lruOf s order).store key data ttl now).1 ∧
      (cacheStore s key data ttl now true).2 = ((lruOf s order).store key data ttl now).2 := by
  rcases cacheStore_cases h key data ttl now true hw with ⟨hpre, heq⟩ | ⟨hkey, httl, -, ⟨hacc, heq⟩ | ⟨hacc, i, hroom, heq⟩⟩
  · have hpre : cacheKeyMax ≤ key.length ∨ ttl = 0 := by simpa using hpre
    simp only [heq, LruCache.store, hpre, if_true, and_true]
    exact ⟨order, h, rfl⟩
  · have hpre : ¬ (cacheKeyMax ≤ key.length ∨ ttl = 0) := by omega
    simp only [heq, LruCache.store, hpre, if_false]
    have hkeeps : Keeps s.reject
        { lruOf s order with stats := { s.stats with rejected := s.stats.rejected + 1 } } :=
      ⟨order, h.withStats _, rfl⟩
    cases hen : s.enabled with
    | false =>
      simp only [lruOf, hen, Bool.false_eq_true, if_false, and_true] at hkeeps ⊢
      exact hkeeps
    | true =>
      have hlarge : s.maxEntry < data.length ∨ s.maxTotal < data.length := by
        by_contra hle
        simp only [CacheState.accepts, hen, Bool.true_and, Bool.and_eq_false_iff, decide_eq_false_iff_not] at hacc
        omega
      simp only [lruOf, hen, if_true, hlarge, and_true] at hkeeps ⊢
      exact hkeeps
  · have hpre : ¬ (cacheKeyMax ≤ key.length ∨ ttl = 0) := by omega
    obtain ⟨hev, -, -⟩ := id hroom
    obtain ⟨hlim, -, hstats⟩ := dropOld_frame s key
    have hacc' := hacc
    simp only [CacheState.accepts, Bool.and_eq_true, decide_eq_true_eq] at hacc'
    obtain ⟨⟨hen, hentry⟩, htotal⟩ := hacc'
    have hfit : ¬ (s.maxEntry < data.length ∨ s.maxTotal < data.length) := by omega
    have hkept := shrink_items data.length h
      (fun e (he : e ∈ Lru.remove CacheEntry.key key order) => List.mem_of_mem_filter he)
    simp only [heq, LruCache.store, hpre, if_false, lruOf, hen, if_true, hfit, remove_items, hkept, and_true]
    refine ⟨_, hroom.tracks hacc ht _ _, ?_⟩
    have hst := hev.stats
    simp only [hlim.maxEntries, hlim.maxTotal, hstats] at hst
    simp [lruOf, fillSlot, hev.limits.enabled, hev.limits.maxEntries, hev.limits.maxTotal, hev.limits.maxEntry,
      hlim.enabled, hlim.maxEntries, hlim.maxTotal, hlim.maxEntry, hen, hst, CacheEntry.item]

end

/-- Every allocation of an operation succeeds. -/
def CacheOp.allocOk : CacheOp → Bool
  | .init _ _ _ alloc | .lookup _ _ alloc | .store _ _ _ _ alloc => alloc
  | .destroy => true

/-- One operation does to the list what `lruStep` says, and answers alike. -/
theorem cacheStep_keeps {s : CacheState} {m : LruCache} {op : CacheOp} (h : Keeps s m)
    (hop : op.allocOk = true ∧ op.NoWrap s) :
    Keeps (cacheStep s op).1 (lruStep m op).1 ∧ (cacheStep s op).2 = (lruStep m op).2 := by
  obtain ⟨order, h, rfl⟩ := h
  obtain ⟨halloc, hop⟩ := hop
  cases op with
  | init n t e alloc =>
    simp only [CacheOp.allocOk] at halloc
    subst halloc
    exact cacheInit_keeps h hop.1 hop.2
  | destroy => exact ⟨⟨[], cacheDestroy_tracks s, by simp [lruStep, lruOf, cacheStep, cacheDestroy]⟩, rfl⟩
  | lookup key now alloc =>
    simp only [CacheOp.allocOk] at halloc
    subst halloc
    obtain ⟨hkeeps, hret⟩ := cacheLookup_keeps h hop key now
    exact ⟨hkeeps, congrArg CacheRet.copy hret⟩
  | store key data ttl now alloc =>
    simp only [CacheOp.allocOk] at halloc
    subst halloc
    obtain ⟨hkeeps, hret⟩ := cacheStore_keeps h hop.1 hop.2 ttl now
    exact ⟨hkeeps, congrArg CacheRet.code hret⟩

/-- **The response cache is a least-recently-used list.** Where allocation
succeeds and nothing wraps, every run returns what the list returns and its
counters are the list's after every operation. -/
theorem cacheRun_refines_lru {ops : List CacheOp}
    (hops : Along (fun s op => op.allocOk = true ∧ CacheOp.NoWrap s op) cacheStep {} ops) :
    observe cacheStep cacheGetStats {} ops = observe lruStep LruCache.getStats {} ops := by
  have hstart : Keeps {} {} := ⟨[], Tracks.zero, rfl⟩
  have hstep : ∀ s m op, Keeps s m → op.allocOk = true ∧ CacheOp.NoWrap s op →
      Keeps (cacheStep s op).1 (lruStep m op).1 ∧ (cacheStep s op).2 = (lruStep m op).2 :=
    fun _ _ _ => cacheStep_keeps
  refine observe_eq Keeps hstep (fun s m hk => ?_) hstart hops
  obtain ⟨order, h, rfl⟩ := hk
  exact getStats_lruOf h

/-- A hit saves the older entry; the next store evicts the other one. -/
theorem cacheRun_refines_lru_evicting :
    let ops : List CacheOp := [.init 2 8 4 true, .store (bytes "a") (bytes "one") 60 0 true,
      .store (bytes "b") (bytes "two") 60 0 true, .lookup (bytes "a") 1 true,
      .store (bytes "c") (bytes "four") 9000 2 true, .lookup (bytes "b") 3 true, .lookup (bytes "a") 60 true, .destroy]
    observe cacheStep cacheGetStats {} ops = observe lruStep LruCache.getStats {} ops ∧
      (observe lruStep LruCache.getStats {} ops)[6]? = some (.copy none, ⟨1, 2, 3, 1, 0⟩, 1, 4) :=
  ⟨cacheRun_refines_lru (by decide), by decide⟩

end SecureProxy
