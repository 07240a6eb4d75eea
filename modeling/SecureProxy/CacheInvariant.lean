/-
What holds of the response cache between operations.

`Tracks s order` is the whole of it, with the recency order of the live slots
as a witness: that order carries the counters, the bounds and the stamps, so
each operation says what it does to the order and nothing else is proved by
hand. `CacheInv` is what a reader of `cache.c` wants to know and says it of
the slots themselves.
-/
import SecureProxy.Cache
import SecureProxy.Lib.Lru
import SecureProxy.Lib.Machine

namespace SecureProxy

open Bytes Word Slots Lru Machine

/-- `order` lists the live slots, the most recently used first. -/
structure Tracks (s : CacheState) (order : List CacheEntry) : Prop where
  recency : Recency CacheEntry.live CacheEntry.lastUsed s.entries order
  stamps : ∀ e ∈ order, e.lastUsed ≤ s.tick
  keys : order.Pairwise fun a b => a.key ≠ b.key
  lens : ∀ e ∈ order, e.len ≤ s.maxEntry
  datas : ∀ e ∈ order, ∃ d, e.data = some d ∧ d.length = e.len
  slots : s.entries.length = s.maxEntries
  usedEntries : s.usedEntries = order.length
  usedBytes : s.usedBytes = total CacheEntry.len order
  fits : total CacheEntry.len order ≤ s.maxTotal
  countWord : s.maxEntries < wordSize
  totalWord : s.maxTotal < wordSize
  enabled : s.enabled → 0 < s.maxEntries

namespace Tracks

variable {s : CacheState} {order front back : List CacheEntry} {e : CacheEntry} {i : Nat}

theorem length_le (h : Tracks s order) : order.length ≤ s.maxEntries := by
  rw [h.recency.perm.length_eq, ← h.slots]
  exact List.length_filter_le _ _

theorem live_of_mem (h : Tracks s order) (he : e ∈ order) : e.live = true := (h.recency.mem_iff.1 he).2

/-- The program starts with every global zero. -/
theorem zero : Tracks {} [] where
  recency := ⟨by simp, List.Pairwise.nil⟩
  stamps := by simp
  keys := List.Pairwise.nil
  lens := by simp
  datas := by simp
  slots := rfl
  usedEntries := rfl
  usedBytes := rfl
  fits := Nat.le_refl _
  countWord := by decide
  totalWord := by decide
  enabled := by simp

/-- Only the table, the clock, the usage and the bounds matter. -/
theorem withStats (h : Tracks s order) (stats : CacheStats) : Tracks { s with stats } order :=
  ⟨h.recency, h.stamps, h.keys, h.lens, h.datas, h.slots, h.usedEntries, h.usedBytes, h.fits, h.countWord,
    h.totalWord, h.enabled⟩

theorem remove (h : Tracks s (front ++ e :: back)) (hi : s.entries[i]? = some e) :
    Tracks (removeEntry s i) (front ++ back) := by
  have hsub : (front ++ back).Sublist (front ++ e :: back) := by simp
  have htotal := total_middle CacheEntry.len front back e
  have hlen : (front ++ e :: back).length = (front ++ back).length + 1 := by simp; omega
  have hle := h.length_le
  have hfits := h.fits
  have hcw := h.countWord
  have htw := h.totalWord
  have hbytes : wsub s.usedBytes e.len = total CacheEntry.len (front ++ back) := by
    rw [h.usedBytes, wsub_of_le (by omega) (by omega)]
    omega
  have hentries : wsub s.usedEntries 1 = (front ++ back).length := by
    rw [h.usedEntries, wsub_of_le (by omega) (by omega)]
    omega
  simp only [removeEntry, hi]
  exact {
    recency := h.recency.free hi (h.live_of_mem (by simp)) rfl
    stamps := fun x hx => h.stamps x (hsub.subset hx)
    keys := h.keys.sublist hsub
    lens := fun x hx => h.lens x (hsub.subset hx)
    datas := fun x hx => h.datas x (hsub.subset hx)
    slots := by simpa using h.slots
    usedEntries := hentries
    usedBytes := hbytes
    fits := show total CacheEntry.len (front ++ back) ≤ s.maxTotal by omega
    countWord := hcw
    totalWord := htw
    enabled := h.enabled }

theorem touch (h : Tracks s (front ++ e :: back)) (hi : s.entries[i]? = some e) (ht : s.tick + 1 < wordSize) :
    Tracks (touchEntry s i) ({ e with lastUsed := s.tick + 1 } :: (front ++ back)) := by
  have hperm : (e :: (front ++ back)).Perm (front ++ e :: back) := List.perm_middle.symm
  have htotal := total_middle CacheEntry.len front back e
  have hmem : ∀ x ∈ front ++ back, x ∈ front ++ e :: back := by
    intro x hx
    simp only [List.mem_append, List.mem_cons] at hx ⊢
    tauto
  have hkeys := (hperm.pairwise_iff (R := fun a b : CacheEntry => a.key ≠ b.key) fun hne => hne.symm).2 h.keys
  obtain ⟨hkey, hkeys⟩ := List.pairwise_cons.1 hkeys
  simp only [touchEntry, hi, wadd_of_lt ht]
  exact {
    recency := h.recency.touch hi (h.live_of_mem (by simp)) (h.live_of_mem (e := e) (by simp))
      fun x hx => Nat.lt_succ_of_le (h.stamps x hx)
    stamps := by
      simp only [List.forall_mem_cons]
      exact ⟨Nat.le_refl _, fun x hx => Nat.le_succ_of_le (h.stamps x (hmem x hx))⟩
    keys := List.pairwise_cons.2 ⟨hkey, hkeys⟩
    lens := by
      simp only [List.forall_mem_cons]
      exact ⟨h.lens e (by simp), fun x hx => h.lens x (hmem x hx)⟩
    datas := by
      simp only [List.forall_mem_cons]
      exact ⟨h.datas e (by simp), fun x hx => h.datas x (hmem x hx)⟩
    slots := by simpa using h.slots
    usedEntries := by rw [h.usedEntries, ← hperm.length_eq]; rfl
    usedBytes := by rw [h.usedBytes, htotal]; rfl
    fits := by
      have := h.fits
      rw [htotal] at this
      exact this
    countWord := h.countWord
    totalWord := h.totalWord
    enabled := h.enabled }

theorem fill (h : Tracks s order) (hi : s.entries[i]? = some e) (hfree : e.live = false)
    (ht : s.tick + 1 < wordSize) {key data : List Byte} (hkey : ∀ x ∈ order, x.key ≠ key)
    (hlen : data.length ≤ s.maxEntry) (hroom : Fits CacheEntry.len s.maxEntries s.maxTotal data.length order)
    (ttl : Nat) (now : Int) :
    Tracks (fillSlot s i key data ttl now) (⟨key, some data, data.length, now + ttl, s.tick + 1⟩ :: order) := by
  obtain ⟨hcount, htotal⟩ := hroom
  have hcw := h.countWord
  have htw := h.totalWord
  have hentries : wadd s.usedEntries 1 = order.length + 1 := by
    rw [h.usedEntries, wadd_of_lt (by omega)]
  have hbytes : wadd s.usedBytes data.length = total CacheEntry.len order + data.length := by
    rw [h.usedBytes, wadd_of_lt (by omega)]
  simp only [fillSlot, wadd_of_lt ht]
  exact {
    recency := h.recency.fill hi hfree rfl fun x hx => Nat.lt_succ_of_le (h.stamps x hx)
    stamps := by
      simp only [List.forall_mem_cons]
      exact ⟨Nat.le_refl _, fun x hx => Nat.le_succ_of_le (h.stamps x hx)⟩
    keys := List.pairwise_cons.2 ⟨fun x hx => (hkey x hx).symm, h.keys⟩
    lens := by
      simp only [List.forall_mem_cons]
      exact ⟨hlen, h.lens⟩
    datas := by
      simp only [List.forall_mem_cons]
      exact ⟨⟨data, rfl, rfl⟩, h.datas⟩
    slots := by simpa using h.slots
    usedEntries := hentries
    usedBytes := hbytes.trans (by rw [total_cons]; exact Nat.add_comm _ _)
    fits := by
      rw [total_cons]
      show data.length + _ ≤ s.maxTotal
      omega
    countWord := hcw
    totalWord := htw
    enabled := h.enabled }

end Tracks

/-! ## Frames -/

section

variable (s : CacheState) (i : Nat)

@[simp] theorem removeEntry_enabled : (removeEntry s i).enabled = s.enabled := by unfold removeEntry; split <;> rfl
@[simp] theorem removeEntry_maxEntries : (removeEntry s i).maxEntries = s.maxEntries := by
  unfold removeEntry; split <;> rfl
@[simp] theorem removeEntry_maxTotal : (removeEntry s i).maxTotal = s.maxTotal := by unfold removeEntry; split <;> rfl
@[simp] theorem removeEntry_maxEntry : (removeEntry s i).maxEntry = s.maxEntry := by unfold removeEntry; split <;> rfl
@[simp] theorem removeEntry_tick : (removeEntry s i).tick = s.tick := by unfold removeEntry; split <;> rfl
@[simp] theorem removeEntry_stats : (removeEntry s i).stats = s.stats := by unfold removeEntry; split <;> rfl

end

/-- What neither removing nor stamping an entry changes. -/
structure SameLimits (s s' : CacheState) : Prop where
  enabled : s'.enabled = s.enabled
  maxEntries : s'.maxEntries = s.maxEntries
  maxTotal : s'.maxTotal = s.maxTotal
  maxEntry : s'.maxEntry = s.maxEntry

theorem SameLimits.trans {s s' s'' : CacheState} (h : SameLimits s s') (h' : SameLimits s' s'') : SameLimits s s'' :=
  ⟨h'.1.trans h.1, h'.2.trans h.2, h'.3.trans h.3, h'.4.trans h.4⟩

theorem removeEntry_sameLimits (s : CacheState) (i : Nat) : SameLimits s (removeEntry s i) := by
  constructor <;> simp

theorem touchEntry_sameLimits (s : CacheState) (i : Nat) : SameLimits s (touchEntry s i) := by
  unfold touchEntry
  split <;> exact ⟨rfl, rfl, rfl, rfl⟩

theorem touchEntry_stats (s : CacheState) (i : Nat) : (touchEntry s i).stats = s.stats := by
  unfold touchEntry
  split <;> rfl

/-! ## Searches -/

namespace Tracks

variable {s : CacheState} {order : List CacheEntry} {e : CacheEntry} {key : List Byte} {i len : Nat}

theorem findLocked_none (h : Tracks s order) (hf : findLocked s.entries key = none) : ∀ e ∈ order, e.key ≠ key := by
  intro e he
  obtain ⟨hmem, hlive⟩ := h.recency.mem_iff.1 he
  have := List.findIdx?_eq_none_iff.1 hf e hmem
  simpa [hlive] using this

theorem findLocked_some (h : Tracks s order) (hf : findLocked s.entries key = some i) :
    ∃ e front back, s.entries[i]? = some e ∧ order = front ++ e :: back ∧ e.key = key := by
  obtain ⟨e, hget, hp⟩ := findIdx?_get hf
  simp only [Bool.and_eq_true, beq_iff_eq] at hp
  obtain ⟨front, back, horder⟩ := h.recency.split hget hp.1
  exact ⟨e, front, back, hget, horder, hp.2⟩

/-- A table with fewer entries than slots has a free one. -/
theorem findFree_some (h : Tracks s order) (hlt : order.length < s.maxEntries) :
    ∃ i e, findFree s.entries = some i ∧ s.entries[i]? = some e ∧ e.live = false := by
  cases hf : findFree s.entries with
  | none =>
    have hall : s.entries.filter CacheEntry.live = s.entries := by
      refine List.filter_eq_self.2 fun e he => ?_
      simpa using List.findIdx?_eq_none_iff.1 hf e he
    have := h.recency.perm.length_eq
    rw [hall, h.slots] at this
    omega
  | some i =>
    obtain ⟨e, hget, hp⟩ := findIdx?_get hf
    exact ⟨i, e, rfl, hget, by simpa using hp⟩

/-! ## Making room -/

theorem dropOld (h : Tracks s order) (key : List Byte) :
    Tracks (dropOld s key) (Lru.remove CacheEntry.key key order) := by
  unfold SecureProxy.dropOld
  cases hf : findLocked s.entries key with
  | none =>
    rw [remove_eq_self (h.findLocked_none hf)]
    exact h
  | some i =>
    obtain ⟨e, front, back, hi, rfl, rfl⟩ := h.findLocked_some hf
    rw [remove_middle h.keys]
    exact h.remove hi

theorem full_iff (h : Tracks s order) (hw : s.usedBytes + len < wordSize) :
    s.full len ↔ ¬ Fits CacheEntry.len s.maxEntries s.maxTotal len order := by
  rw [CacheState.full, wadd_of_lt hw, h.usedEntries, h.usedBytes, Fits]
  omega

theorem evictLru_nil (h : Tracks s []) : evictLru s = none := by
  rw [evictLru, scanVictim, h.recency.leastScan_eq_none_iff.2 rfl, Option.map_none]

/-- Eviction takes the last of the order. -/
theorem evictLru_snoc (h : Tracks s (order ++ [e])) : ∃ i, s.entries[i]? = some e ∧ evictLru s = some (evictSlot s i) := by
  obtain ⟨i, t, hs, hi⟩ := h.recency.leastScan_eq_some
  exact ⟨i, hi, by rw [evictLru, scanVictim, hs, Option.map_some]⟩

theorem evictSlot (h : Tracks s (order ++ [e])) (hi : s.entries[i]? = some e) : Tracks (evictSlot s i) order := by
  have hrest : Tracks (removeEntry s i) (order ++ []) := h.remove hi
  rw [List.append_nil] at hrest
  exact hrest.withStats _

end Tracks

/-- What the eviction loop leaves. -/
structure Evicted (s : CacheState) (order : List CacheEntry) (len : Nat) (s' : CacheState) : Prop where
  tracks : Tracks s' (shrink CacheEntry.len s.maxEntries s.maxTotal len order)
  limits : SameLimits s s'
  tick : s'.tick = s.tick
  stats : s'.stats = { s.stats with
    evictions := s.stats.evictions + (order.length - (shrink CacheEntry.len s.maxEntries s.maxTotal len order).length) }

namespace Evicted

variable {s s' : CacheState} {order : List CacheEntry} {e : CacheEntry} {i len : Nat}

theorem refl (h : Tracks s order) (hk : shrink CacheEntry.len s.maxEntries s.maxTotal len order = order) :
    Evicted s order len s :=
  ⟨by rwa [hk], ⟨rfl, rfl, rfl, rfl⟩, rfl, by simp [hk]⟩

/-- One entry goes, and the loop goes on. -/
theorem cons (hfull : ¬ Fits CacheEntry.len s.maxEntries s.maxTotal len (order ++ [e]))
    (h : Evicted (evictSlot s i) order len s') : Evicted s (order ++ [e]) len s' := by
  have hk := shrink_snoc hfull
  have hle : (shrink CacheEntry.len s.maxEntries s.maxTotal len order).length ≤ order.length :=
    List.length_take_le' _ _
  obtain ⟨htracks, hlimits, htick, hstats⟩ := h
  simp only [evictSlot, removeEntry_maxEntries, removeEntry_maxTotal, removeEntry_stats, removeEntry_tick]
    at htracks htick hstats
  refine ⟨by rwa [hk], (removeEntry_sameLimits s i).trans ⟨hlimits.1, hlimits.2, hlimits.3, hlimits.4⟩, htick, ?_⟩
  rw [hstats, hk, List.length_append, List.length_singleton]
  simp only [CacheStats.mk.injEq, true_and, and_true]
  omega

end Evicted

theorem evictLoop_evicted {fuel len : Nat} {s : CacheState} {order : List CacheEntry} (h : Tracks s order)
    (hw : s.usedBytes + len < wordSize) (hfuel : order.length < fuel) :
    Evicted s order len (evictLoop fuel s len) := by
  induction fuel generalizing s order with
  | zero => omega
  | succ fuel ih =>
    unfold evictLoop
    by_cases hfull : s.full len
    · simp only [hfull, if_true]
      rcases List.eq_nil_or_concat' order with rfl | ⟨order, e, rfl⟩
      · rw [h.evictLru_nil]
        exact .refl h shrink_nil
      · obtain ⟨i, hi, hevict⟩ := h.evictLru_snoc
        have hnext := h.evictSlot hi
        have hbytes : (evictSlot s i).usedBytes ≤ s.usedBytes := by
          rw [hnext.usedBytes, h.usedBytes, total_append]
          omega
        rw [hevict]
        refine .cons ((h.full_iff hw).1 hfull) (ih hnext (by omega) ?_)
        simp only [List.length_append, List.length_singleton] at hfuel
        omega
    · simp only [hfull, if_false]
      exact .refl h (shrink_of_fits (not_not.1 ((h.full_iff hw).not.1 hfull)))

theorem dropOld_frame (s : CacheState) (key : List Byte) :
    SameLimits s (dropOld s key) ∧ (dropOld s key).tick = s.tick ∧ (dropOld s key).stats = s.stats := by
  unfold dropOld
  split
  · exact ⟨⟨rfl, rfl, rfl, rfl⟩, rfl, rfl⟩
  · exact ⟨removeEntry_sameLimits .., by simp, by simp⟩

/-- A store makes the room it needs: the eviction loop ends with room. -/
theorem makeRoom_evicted {s : CacheState} {order : List CacheEntry} {key : List Byte} {len : Nat} (h : Tracks s order)
    (hw : (dropOld s key).usedBytes + len < wordSize) :
    Evicted (dropOld s key) (Lru.remove CacheEntry.key key order) len (makeRoom s key len) := by
  have hdrop := h.dropOld key
  refine evictLoop_evicted hdrop hw ?_
  have := hdrop.length_le
  rw [← hdrop.slots] at this
  omega

/-! ## Operations -/

/-- A lookup misses, finds an expired entry, or finds a fresh one. -/
theorem cacheLookup_cases {s : CacheState} {order : List CacheEntry} (h : Tracks s order) (hen : s.enabled = true)
    (key : List Byte) (now : Int) (alloc : Bool) :
    ((∀ e ∈ order, e.key ≠ key) ∧ cacheLookup s key now alloc = (s.miss, none)) ∨
    ∃ i e front back, s.entries[i]? = some e ∧ order = front ++ e :: back ∧ e.key = key ∧
      (e.expires ≤ now ∧ cacheLookup s key now alloc = ((removeEntry s i).miss, none) ∨
       now < e.expires ∧ alloc = true ∧ cacheLookup s key now alloc = ((touchEntry s i).hit, e.data) ∨
       now < e.expires ∧ alloc = false ∧ cacheLookup s key now alloc = (s.miss, none)) := by
  cases hf : findLocked s.entries key with
  | none =>
    refine .inl ⟨h.findLocked_none hf, ?_⟩
    simp [cacheLookup, hen, hf]
  | some i =>
    obtain ⟨e, front, back, hi, rfl, rfl⟩ := h.findLocked_some hf
    obtain ⟨d, hd, hlen⟩ := h.datas e (by simp)
    refine .inr ⟨i, e, front, back, hi, rfl, rfl, ?_⟩
    by_cases hexp : e.expires ≤ now
    · exact .inl ⟨hexp, by simp [cacheLookup, hen, hf, hi, hexp]⟩
    · cases alloc with
      | true =>
        refine .inr (.inl ⟨by omega, rfl, ?_⟩)
        simp [cacheLookup, hen, hf, hi, hexp, hd, ← hlen]
      | false =>
        refine .inr (.inr ⟨by omega, rfl, ?_⟩)
        simp [cacheLookup, hen, hf, hi, hexp]

/-- What an accepted store finds once it has made room. -/
structure StoreRoom (s : CacheState) (order : List CacheEntry) (key data : List Byte) (i : Nat) : Prop where
  evicted : Evicted (dropOld s key) (Lru.remove CacheEntry.key key order) data.length (makeRoom s key data.length)
  room : Fits CacheEntry.len s.maxEntries s.maxTotal data.length
    (shrink CacheEntry.len s.maxEntries s.maxTotal data.length (Lru.remove CacheEntry.key key order))
  free : ∃ e, (makeRoom s key data.length).entries[i]? = some e ∧ e.live = false

/-- An accepted store always finds a free slot. -/
theorem accepted_room {s : CacheState} {order : List CacheEntry} (h : Tracks s order) {key data : List Byte}
    (hacc : s.accepts data.length = true) (hw : (dropOld s key).usedBytes + data.length < wordSize) :
    ∃ i, findFree (makeRoom s key data.length).entries = some i ∧ StoreRoom s order key data i := by
  obtain ⟨⟨hen, hentry⟩, htotal⟩ : (s.enabled = true ∧ data.length ≤ s.maxEntry) ∧ data.length ≤ s.maxTotal := by
    simpa [CacheState.accepts] using hacc
  obtain ⟨hlim, -, -⟩ := dropOld_frame s key
  have hev := makeRoom_evicted h hw
  have hroom : Fits CacheEntry.len s.maxEntries s.maxTotal data.length
      (shrink CacheEntry.len s.maxEntries s.maxTotal data.length (Lru.remove CacheEntry.key key order)) :=
    shrink_fits (h.enabled hen) htotal
  have htracks := hev.tracks
  rw [hlim.maxEntries, hlim.maxTotal] at htracks
  obtain ⟨i, e, hfree, hget, hdead⟩ := htracks.findFree_some (by
    rw [hev.limits.maxEntries, hlim.maxEntries]
    exact hroom.1)
  exact ⟨i, hfree, hev, hroom, e, hget, hdead⟩

/-- A store is refused before it looks, is rejected for its size (or for want
of a cache), or fills a free slot. -/
theorem cacheStore_cases {s : CacheState} {order : List CacheEntry} (h : Tracks s order) (key data : List Byte)
    (ttl : Nat) (now : Int) (alloc : Bool)
    (hw : s.accepts data.length = true → (dropOld s key).usedBytes + data.length < wordSize) :
    ((cacheKeyMax ≤ key.length ∨ ttl = 0 ∨ alloc = false) ∧ cacheStore s key data ttl now alloc = (s, false)) ∨
    (key.length < cacheKeyMax ∧ ttl ≠ 0 ∧ alloc = true ∧
      (s.accepts data.length = false ∧ cacheStore s key data ttl now alloc = (s.reject, false) ∨
       s.accepts data.length = true ∧ ∃ i, StoreRoom s order key data i ∧
        cacheStore s key data ttl now alloc =
          (fillSlot (makeRoom s key data.length) i key data (min ttl cacheMaxTtlSeconds) now, true))) := by
  by_cases hpre : cacheKeyMax ≤ key.length ∨ ttl = 0 ∨ alloc = false
  · refine .inl ⟨hpre, ?_⟩
    simp only [cacheStore]
    rw [if_pos (by simpa [or_assoc] using hpre)]
  · obtain ⟨hkey, httl, halloc⟩ : key.length < cacheKeyMax ∧ ttl ≠ 0 ∧ alloc = true := by
      simpa [not_or] using hpre
    refine .inr ⟨hkey, httl, halloc, ?_⟩
    cases hacc : s.accepts data.length with
    | false => exact .inl ⟨rfl, by simp [cacheStore, hkey, httl, halloc, hacc]⟩
    | true =>
      obtain ⟨i, hfree, hroom⟩ := accepted_room h hacc (hw hacc)
      exact .inr ⟨rfl, i, hroom, by simp [cacheStore, hkey, httl, halloc, hacc, hfree]⟩

/-- The order a store leaves. -/
theorem StoreRoom.tracks {s : CacheState} {order : List CacheEntry} {key data : List Byte} {i : Nat}
    (h : StoreRoom s order key data i) (hacc : s.accepts data.length = true) (ht : s.tick + 1 < wordSize)
    (ttl : Nat) (now : Int) :
    Tracks (fillSlot (makeRoom s key data.length) i key data ttl now)
      (⟨key, some data, data.length, now + ttl, s.tick + 1⟩ ::
        shrink CacheEntry.len s.maxEntries s.maxTotal data.length (Lru.remove CacheEntry.key key order)) := by
  obtain ⟨hev, hroom, e, hget, hdead⟩ := h
  obtain ⟨hlim, htick, -⟩ := dropOld_frame s key
  have htracks := hev.tracks
  rw [hlim.maxEntries, hlim.maxTotal] at htracks
  have htick' : (makeRoom s key data.length).tick = s.tick := hev.tick.trans htick
  have hentry : data.length ≤ s.maxEntry := by
    simp only [CacheState.accepts, Bool.and_eq_true, decide_eq_true_eq] at hacc
    exact hacc.1.2
  rw [← htick']
  refine htracks.fill hget hdead (by rw [htick']; exact ht) ?_ ?_ ?_ ttl now
  · intro x hx
    have hx' : x ∈ Lru.remove CacheEntry.key key order := List.mem_of_mem_take hx
    simpa [Lru.remove] using (List.mem_filter.1 hx').2
  · rw [hev.limits.maxEntry, hlim.maxEntry]
    exact hentry
  · rw [hev.limits.maxEntries, hev.limits.maxTotal, hlim.maxEntries, hlim.maxTotal]
    exact hroom

/-- No sum of sizes and no tick of an operation wraps, and the bounds
`cache_init` is given are 64-bit. -/
def CacheOp.NoWrap (s : CacheState) : CacheOp → Prop
  | .init n t _ _ => n < wordSize ∧ t < wordSize
  | .destroy => True
  | .lookup .. => s.tick + 1 < wordSize
  | .store key data .. => s.tick + 1 < wordSize ∧
      (s.accepts data.length = true → (dropOld s key).usedBytes + data.length < wordSize)

instance (s : CacheState) : ∀ op : CacheOp, Decidable (op.NoWrap s)
  | .init .. => inferInstanceAs (Decidable (_ ∧ _))
  | .destroy => isTrue trivial
  | .lookup .. => inferInstanceAs (Decidable (_ < _))
  | .store .. => inferInstanceAs (Decidable (_ ∧ (_ → _)))

theorem cacheInit_tracks {s : CacheState} {order : List CacheEntry} (h : Tracks s order) {n t : Nat}
    (hn : n < wordSize) (ht : t < wordSize) (m : Nat) (alloc : Bool) : ∃ order', Tracks (cacheInit s n t m alloc).1 order' := by
  unfold cacheInit
  split
  · exact ⟨order, h⟩
  · rename_i hcond
    simp only [Bool.or_eq_true, decide_eq_true_eq, not_or] at hcond
    refine ⟨[], ⟨?_, List.Pairwise.nil⟩, by simp, List.Pairwise.nil, by simp, by simp, by simp, rfl, rfl, by simp, hn,
      ht, fun _ => by simp; omega⟩
    rw [List.filter_eq_nil_iff.2 fun e he => by rw [List.eq_of_mem_replicate he]; decide]

theorem cacheDestroy_tracks (s : CacheState) : Tracks (cacheDestroy s) [] :=
  ⟨⟨by simp [cacheDestroy], List.Pairwise.nil⟩, by simp, List.Pairwise.nil, by simp, by simp, rfl, rfl, rfl, by simp,
    by simp [cacheDestroy, wordSize], by simp [cacheDestroy, wordSize], by simp [cacheDestroy]⟩

theorem cacheLookup_tracks {s : CacheState} {order : List CacheEntry} (h : Tracks s order) (ht : s.tick + 1 < wordSize)
    (key : List Byte) (now : Int) (alloc : Bool) : ∃ order', Tracks (cacheLookup s key now alloc).1 order' := by
  cases hen : s.enabled with
  | false => exact ⟨order, by simpa [cacheLookup, hen] using h⟩
  | true =>
    rcases cacheLookup_cases h hen key now alloc with ⟨-, heq⟩ | ⟨i, e, front, back, hi, rfl, -, hcase⟩
    · rw [heq]
      exact ⟨order, h.withStats _⟩
    · rcases hcase with ⟨-, heq⟩ | ⟨-, -, heq⟩ | ⟨-, -, heq⟩ <;> rw [heq]
      · exact ⟨_, (h.remove hi).withStats _⟩
      · exact ⟨_, (h.touch hi ht).withStats _⟩
      · exact ⟨_, h.withStats _⟩

theorem cacheStore_tracks {s : CacheState} {order : List CacheEntry} (h : Tracks s order) (ht : s.tick + 1 < wordSize)
    {key data : List Byte} (hw : s.accepts data.length = true → (dropOld s key).usedBytes + data.length < wordSize)
    (ttl : Nat) (now : Int) (alloc : Bool) : ∃ order', Tracks (cacheStore s key data ttl now alloc).1 order' := by
  rcases cacheStore_cases h key data ttl now alloc hw with ⟨-, heq⟩ | ⟨-, -, -, ⟨-, heq⟩ | ⟨hacc, i, hroom, heq⟩⟩ <;>
    rw [heq]
  · exact ⟨order, h⟩
  · exact ⟨order, h.withStats _⟩
  · exact ⟨_, hroom.tracks hacc ht _ _⟩

/-- Every operation keeps the invariant. -/
theorem cacheStep_tracks {s : CacheState} {op : CacheOp} (h : ∃ order, Tracks s order) (hop : op.NoWrap s) :
    ∃ order', Tracks (cacheStep s op).1 order' := by
  obtain ⟨order, h⟩ := h
  cases op with
  | init n t m alloc => exact cacheInit_tracks h hop.1 hop.2 m alloc
  | destroy => exact ⟨[], cacheDestroy_tracks s⟩
  | lookup key now alloc => exact cacheLookup_tracks h hop key now alloc
  | store key data ttl now alloc => exact cacheStore_tracks h hop.1 hop.2 ttl now alloc

/-! ## Whole runs -/

/-- The counters agree with the slots and stay within the bounds. -/
structure CacheInv (s : CacheState) : Prop where
  usedEntries : s.usedEntries = (s.entries.filter CacheEntry.live).length
  usedEntries_le : s.usedEntries ≤ s.maxEntries
  usedBytes : s.usedBytes = ((s.entries.filter CacheEntry.live).map CacheEntry.len).sum
  usedBytes_le : s.usedBytes ≤ s.maxTotal
  len_le : ∀ e ∈ s.entries, e.live = true → e.len ≤ s.maxEntry
  keys : s.entries.Pairwise fun a b => a.live = true → b.live = true → a.key ≠ b.key
  stamps : s.entries.Pairwise fun a b => a.live = true → b.live = true → a.lastUsed ≠ b.lastUsed
  stamp_le : ∀ e ∈ s.entries, e.live = true → e.lastUsed ≤ s.tick

theorem Tracks.cacheInv {s : CacheState} {order : List CacheEntry} (h : Tracks s order) : CacheInv s := by
  have hperm := h.recency.perm
  have hmem : ∀ e ∈ s.entries, e.live = true → e ∈ order := fun e he hl => h.recency.mem_iff.2 ⟨he, hl⟩
  refine ⟨?_, ?_, ?_, ?_, fun e he hl => h.lens e (hmem e he hl), ?_, ?_, fun e he hl => h.stamps e (hmem e he hl)⟩
  · rw [h.usedEntries, hperm.length_eq]
  · rw [h.usedEntries]
    exact h.length_le
  · rw [h.usedBytes]
    exact (hperm.map CacheEntry.len).sum_eq
  · rw [h.usedBytes]
    exact h.fits
  · exact List.pairwise_filter.1 ((hperm.pairwise_iff fun hne => hne.symm).1 h.keys)
  · have hdistinct : order.Pairwise fun a b => a.lastUsed ≠ b.lastUsed := h.recency.sorted.imp fun hlt => by omega
    exact List.pairwise_filter.1 ((hperm.pairwise_iff fun hne => hne.symm).1 hdistinct)

/-- What a store finds and what a refused one leaves alone. -/
structure StoreSafe (s : CacheState) (key data : List Byte) (ttl : Nat) (now : Int) (alloc : Bool) : Prop where
  /-- The eviction loop ends with room. -/
  room : s.accepts data.length = true → ¬ (makeRoom s key data.length).full data.length
  /-- There is a free slot after it. -/
  slot : s.accepts data.length = true → (findFree (makeRoom s key data.length).entries).isSome
  refused : (cacheStore s key data ttl now alloc).2 = false →
    (cacheStore s key data ttl now alloc).1.entries = s.entries ∧
    (cacheStore s key data ttl now alloc).1.usedEntries = s.usedEntries ∧
    (cacheStore s key data ttl now alloc).1.usedBytes = s.usedBytes

theorem Tracks.storeSafe {s : CacheState} {order : List CacheEntry} (h : Tracks s order) {key data : List Byte}
    (hw : s.accepts data.length = true → (SecureProxy.dropOld s key).usedBytes + data.length < wordSize)
    (ttl : Nat) (now : Int) (alloc : Bool) : StoreSafe s key data ttl now alloc where
  room hacc := by
    obtain ⟨i, -, hev, hroom, -⟩ := accepted_room h hacc (hw hacc)
    obtain ⟨hlim, -, -⟩ := dropOld_frame s key
    have htracks := hev.tracks
    have htw := h.totalWord
    rw [hlim.maxEntries, hlim.maxTotal] at htracks
    rw [htracks.full_iff (by rw [htracks.usedBytes]; have := hroom.2; omega), hev.limits.maxEntries,
      hev.limits.maxTotal, hlim.maxEntries, hlim.maxTotal, not_not]
    exact hroom
  slot hacc := by
    obtain ⟨i, hfree, -⟩ := accepted_room h hacc (hw hacc)
    simp [hfree]
  refused hrc := by
    rcases cacheStore_cases h key data ttl now alloc hw with ⟨-, heq⟩ | ⟨-, -, -, ⟨-, heq⟩ | ⟨-, i, -, heq⟩⟩ <;>
      rw [heq] at hrc ⊢
    · exact ⟨rfl, rfl, rfl⟩
    · exact ⟨rfl, rfl, rfl⟩
    · simp at hrc

/-- The bounds `cache_init` may be given: sizes, with room to add. -/
def CacheOp.Bounded : CacheOp → Prop
  | .init n t _ _ => n < 2 ^ 64 ∧ t < 2 ^ 63
  | _ => True

theorem dropOld_usedBytes_le {s : CacheState} {order : List CacheEntry} (h : Tracks s order) (key : List Byte) :
    (dropOld s key).usedBytes ≤ s.maxTotal := by
  have hdrop := h.dropOld key
  rw [hdrop.usedBytes, ← (dropOld_frame s key).1.maxTotal]
  exact hdrop.fits

/-- With such bounds no sum of sizes wraps. -/
theorem accepts_noWrap {s : CacheState} {order : List CacheEntry} (h : Tracks s order) (hmax : s.maxTotal < 2 ^ 63)
    (key : List Byte) {len : Nat} (hacc : s.accepts len = true) : (dropOld s key).usedBytes + len < wordSize := by
  have hle := dropOld_usedBytes_le h key
  simp only [CacheState.accepts, Bool.and_eq_true, decide_eq_true_eq] at hacc
  have : wordSize = 2 ^ 63 + 2 ^ 63 := by decide
  omega

/-- The part of the state that decides whether sums may wrap. -/
theorem cacheStep_bounds {s : CacheState} {op : CacheOp} (h : ∃ order, Tracks s order) (hop : op.NoWrap s)
    (hb : op.Bounded) (hmax : s.maxTotal < 2 ^ 63) :
    (cacheStep s op).1.maxTotal < 2 ^ 63 ∧ (cacheStep s op).1.tick ≤ s.tick + 1 := by
  obtain ⟨order, h⟩ := h
  have htouch : ∀ i, s.tick + 1 < wordSize → (touchEntry s i).tick ≤ s.tick + 1 := by
    intro i ht
    unfold touchEntry
    split
    · exact Nat.le_succ _
    · exact (wadd_of_lt ht).le
  cases op with
  | init n t m alloc =>
    simp only [cacheStep, cacheInit]
    split
    · exact ⟨hmax, Nat.le_succ _⟩
    · exact ⟨hb.2, Nat.zero_le _⟩
  | destroy => exact ⟨by simp [cacheStep, cacheDestroy], Nat.le_succ _⟩
  | lookup key now alloc =>
    simp only [cacheStep]
    cases hen : s.enabled with
    | false => simpa [cacheLookup, hen] using hmax
    | true =>
      rcases cacheLookup_cases h hen key now alloc with ⟨-, heq⟩ | ⟨i, e, front, back, hi, rfl, -, hcase⟩
      · rw [heq]
        exact ⟨hmax, Nat.le_succ _⟩
      · rcases hcase with ⟨-, heq⟩ | ⟨-, -, heq⟩ | ⟨-, -, heq⟩ <;> rw [heq]
        · exact ⟨by simpa [CacheState.miss] using hmax, by simp [CacheState.miss]⟩
        · exact ⟨by simpa [CacheState.hit, (touchEntry_sameLimits s i).maxTotal] using hmax, htouch i hop⟩
        · exact ⟨hmax, Nat.le_succ _⟩
  | store key data ttl now alloc =>
    simp only [cacheStep]
    rcases cacheStore_cases h key data ttl now alloc hop.2 with
      ⟨-, heq⟩ | ⟨-, -, -, ⟨-, heq⟩ | ⟨-, i, hroom, heq⟩⟩ <;> rw [heq]
    · exact ⟨hmax, Nat.le_succ _⟩
    · exact ⟨hmax, Nat.le_succ _⟩
    · obtain ⟨hlim, htick, -⟩ := dropOld_frame s key
      have htick' := hroom.evicted.tick.trans htick
      refine ⟨?_, ?_⟩
      · simpa [fillSlot, hroom.evicted.limits.maxTotal, hlim.maxTotal] using hmax
      · simp only [fillSlot, htick', wadd_of_lt hop.1, le_refl]

/-- Fewer than 2^64 operations within such bounds never wrap. -/
theorem along_noWrap : ∀ {ops : List CacheOp} {s : CacheState} {k : Nat}, (∃ order, Tracks s order) →
    s.maxTotal < 2 ^ 63 → s.tick ≤ k → k + ops.length < 2 ^ 64 → (∀ op ∈ ops, op.Bounded) →
    Along (fun s op => CacheOp.NoWrap s op) cacheStep s ops ∧ (run cacheStep s ops).maxTotal < 2 ^ 63
  | [], _, _, _, hmax, _, _, _ => ⟨trivial, hmax⟩
  | op :: ops, s, k, h, hmax, htick, hlen, hb => by
    have htw : s.tick + 1 < wordSize := by
      simp only [List.length_cons, wordSize] at hlen ⊢
      omega
    have hop : op.NoWrap s := by
      obtain ⟨order, h⟩ := h
      cases op with
      | init n t m alloc =>
        have := hb _ (List.mem_cons_self ..)
        simp only [CacheOp.Bounded] at this
        simp only [CacheOp.NoWrap, wordSize]
        omega
      | destroy => trivial
      | lookup key now alloc => exact htw
      | store key data ttl now alloc => exact ⟨htw, accepts_noWrap h hmax key⟩
    obtain ⟨hmax', htick'⟩ := cacheStep_bounds h hop (hb _ (List.mem_cons_self ..)) hmax
    have hrest := along_noWrap (k := k + 1) (cacheStep_tracks h hop) hmax' (by omega)
      (by simp only [List.length_cons] at hlen; omega) fun op' h' => hb op' (List.mem_cons_of_mem _ h')
    exact ⟨⟨hop, hrest.1⟩, hrest.2⟩

/-- **The cache's counters never drift.** In every state that fewer than 2^64
operations reach, the counters are those of the live slots and within the
bounds, keys and stamps are distinct, and the next store makes the room it
needs or leaves the slots alone. -/
theorem cacheRun_invariant {ops : List CacheOp} (hops : ∀ op ∈ ops, op.Bounded) (hlen : ops.length < 2 ^ 64) :
    CacheInv (run cacheStep {} ops) ∧
      ∀ key data ttl now alloc, StoreSafe (run cacheStep {} ops) key data ttl now alloc := by
  have halong := along_noWrap (k := 0) ⟨[], Tracks.zero⟩ (by decide) (Nat.le_refl _) (by omega) hops
  have hrun : ∃ order, Tracks (run cacheStep {} ops) order :=
    run_invariant (fun _ _ => cacheStep_tracks) ⟨[], Tracks.zero⟩ halong.1
  obtain ⟨order, h⟩ := hrun
  exact ⟨h.cacheInv, fun key data ttl now alloc => h.storeSafe (accepts_noWrap h halong.2 key) ttl now alloc⟩

/-- A store that replaces and one that evicts. -/
theorem cacheRun_invariant_evicting :
    let ops : List CacheOp := [.init 2 8 4 true, .store (bytes "a") (bytes "one") 60 0 true,
      .store (bytes "b") (bytes "two") 60 0 true, .lookup (bytes "a") 1 true,
      .store (bytes "c") (bytes "four") 60 2 true]
    CacheInv (run cacheStep {} ops) ∧
      ∀ key data ttl now alloc, StoreSafe (run cacheStep {} ops) key data ttl now alloc :=
  cacheRun_invariant (by simp [CacheOp.Bounded]) (by decide)

end SecureProxy
