/-
What the slots of the response cache hold, whatever the clock and the
counters do: an operation removes some of what was there, and a store that
succeeds adds its own data and nothing else. No bound is assumed, so this
holds even where the counters of `cache.c` would wrap.
-/
import Mathlib.Data.List.Perm.Subperm
import SecureProxy.Cache

namespace SecureProxy

open Bytes Slots

/-- What a live slot says about a response. -/
structure CacheContent where
  key : List Byte
  data : Option (List Byte)
  len : Nat
  expires : Int
  deriving DecidableEq, Repr

def CacheEntry.content (e : CacheEntry) : CacheContent := ⟨e.key, e.data, e.len, e.expires⟩

/-- The contents of the live slots. -/
def contents (es : List CacheEntry) : List CacheContent := (es.filter CacheEntry.live).map CacheEntry.content

/-- No two of them have one key. -/
def DistinctKeys (cs : List CacheContent) : Prop := cs.Pairwise fun a b => a.key ≠ b.key

theorem DistinctKeys.subperm {cs cs' : List CacheContent} (h : DistinctKeys cs) (hs : cs'.Subperm cs) :
    DistinctKeys cs' := by
  obtain ⟨l, hperm, hsub⟩ := hs
  exact (hperm.pairwise_iff fun hne => hne.symm).1 (h.sublist hsub)

theorem mem_contents {es : List CacheEntry} {c : CacheContent} :
    c ∈ contents es ↔ ∃ e ∈ es, e.live = true ∧ e.content = c := by
  simp [contents, and_assoc]

/-- One slot changes. -/
theorem contents_set {es : List CacheEntry} {i : Nat} {old : CacheEntry} (hi : es[i]? = some old) (new : CacheEntry) :
    ((if old.live then [old.content] else []) ++ contents (es.set i new)).Perm
      ((if new.live then [new.content] else []) ++ contents es) := by
  have h := ((perm_set hi new).filter CacheEntry.live).map CacheEntry.content
  cases ho : old.live <;> cases hn : new.live <;> simpa [ho, hn, contents] using h

/-! ## Removing -/

/-- A live slot that is freed takes its content with it. -/
theorem removeEntry_contents {s : CacheState} {i : Nat} {e : CacheEntry} (hi : s.entries[i]? = some e)
    (hl : e.live = true) : (e.content :: contents (removeEntry s i).entries).Perm (contents s.entries) := by
  have h := contents_set hi e.freed
  have hdead : e.freed.live = false := rfl
  simpa [removeEntry, hi, hl, hdead] using h

theorem removeEntry_subperm (s : CacheState) (i : Nat) :
    (contents (removeEntry s i).entries).Subperm (contents s.entries) := by
  cases hi : s.entries[i]? with
  | none =>
    simp only [removeEntry, hi]
    exact List.Subperm.refl _
  | some e =>
    have h := (contents_set hi e.freed).subperm
    have hdead : e.freed.live = false := rfl
    simp only [hdead, Bool.false_eq_true, if_false, List.nil_append] at h
    simp only [removeEntry, hi]
    exact (List.sublist_append_right _ _).subperm.trans h

theorem evictLoop_subperm (len : Nat) : ∀ (fuel : Nat) (s : CacheState),
    (contents (evictLoop fuel s len).entries).Subperm (contents s.entries)
  | 0, s => List.Subperm.refl _
  | fuel + 1, s => by
    unfold evictLoop
    split
    · cases hv : scanVictim s.entries with
      | none =>
        simp only [evictLru, hv, Option.map_none]
        exact List.Subperm.refl _
      | some v =>
        simp only [evictLru, hv, Option.map_some]
        exact (evictLoop_subperm len fuel _).trans (removeEntry_subperm s v.1)
    · exact List.Subperm.refl _

/-! ## Looking for a key -/

theorem findLocked_some {es : List CacheEntry} {key : List Byte} {i : Nat} (h : findLocked es key = some i) :
    ∃ e, es[i]? = some e ∧ e.live = true ∧ e.key = key := by
  obtain ⟨e, he, hp⟩ := findIdx?_get h
  simp only [Bool.and_eq_true, beq_iff_eq] at hp
  exact ⟨e, he, hp⟩

theorem findLocked_none {es : List CacheEntry} {key : List Byte} (h : findLocked es key = none) :
    ∀ c ∈ contents es, c.key ≠ key := by
  intro c hc heq
  obtain ⟨e, he, hl, rfl⟩ := mem_contents.1 hc
  have := List.findIdx?_eq_none_iff.1 h e he
  simp [hl, show e.key = key from heq] at this

/-- What is left of the key's old entry: nothing. -/
theorem dropOld_contents {s : CacheState} (hd : DistinctKeys (contents s.entries)) (key : List Byte) :
    (contents (dropOld s key).entries).Subperm (contents s.entries) ∧
      ∀ c ∈ contents (dropOld s key).entries, c.key ≠ key := by
  cases hf : findLocked s.entries key with
  | none =>
    simp only [dropOld, hf]
    exact ⟨List.Subperm.refl _, findLocked_none hf⟩
  | some i =>
    obtain ⟨e, hi, hl, rfl⟩ := findLocked_some hf
    have hperm := removeEntry_contents hi hl
    have hd' := List.pairwise_cons.1 ((hperm.pairwise_iff fun hne => hne.symm).2 hd)
    simp only [dropOld, hf]
    exact ⟨removeEntry_subperm s i, fun c hc heq => hd'.1 c hc heq.symm⟩

theorem makeRoom_contents {s : CacheState} (hd : DistinctKeys (contents s.entries)) (key : List Byte) (len : Nat) :
    (contents (makeRoom s key len).entries).Subperm (contents s.entries) ∧
      ∀ c ∈ contents (makeRoom s key len).entries, c.key ≠ key := by
  obtain ⟨hsub, hkey⟩ := dropOld_contents hd key
  have hev := evictLoop_subperm len ((dropOld s key).entries.length + 1) (dropOld s key)
  exact ⟨hev.trans hsub, fun c hc => hkey c (hev.subset hc)⟩

/-! ## The operations -/

theorem touchEntry_contents (s : CacheState) (i : Nat) :
    (contents (touchEntry s i).entries).Perm (contents s.entries) := by
  cases hi : s.entries[i]? with
  | none => simp [touchEntry, hi]
  | some e =>
    have h := contents_set hi { e with lastUsed := Word.wadd s.tick 1 }
    have hlive : CacheEntry.live { e with lastUsed := Word.wadd s.tick 1 } = e.live := rfl
    have hcont : CacheEntry.content { e with lastUsed := Word.wadd s.tick 1 } = e.content := rfl
    rw [hlive, hcont] at h
    simp only [touchEntry, hi]
    exact (List.perm_append_left_iff _).1 h

/-- A lookup adds nothing, and what it returns is held under the key and has
not expired. -/
theorem cacheLookup_contents (s : CacheState) (key : List Byte) (now : Int) (alloc : Bool) :
    (contents (cacheLookup s key now alloc).1.entries).Subperm (contents s.entries) ∧
      ∀ d, (cacheLookup s key now alloc).2 = some d →
        ∃ c ∈ contents s.entries, c.key = key ∧ now < c.expires ∧ d = (c.data.getD []).take c.len := by
  unfold cacheLookup
  split
  · exact ⟨List.Subperm.refl _, by simp⟩
  · cases hf : findLocked s.entries key with
    | none => exact ⟨List.Subperm.refl _, by simp⟩
    | some i =>
      obtain ⟨e, hi, hl, rfl⟩ := findLocked_some hf
      simp only [Option.bind_some, hi, Option.map_some]
      by_cases hexp : e.expires ≤ now
      · rw [if_pos hexp]
        exact ⟨removeEntry_subperm s i, by simp⟩
      · rw [if_neg hexp]
        cases alloc with
        | false => exact ⟨List.Subperm.refl _, by simp⟩
        | true =>
          refine ⟨(touchEntry_contents s i).subperm, fun d heq => ?_⟩
          have hmem : e.content ∈ contents s.entries := mem_contents.2 ⟨e, List.mem_of_getElem? hi, hl, rfl⟩
          exact ⟨e.content, hmem, rfl, Int.not_le.1 hexp, (Option.some.inj heq).symm⟩

/-- What a store that succeeds puts into its slot. -/
def storedContent (key data : List Byte) (ttl : Nat) (now : Int) : CacheContent :=
  ⟨key, some data, data.length, now + min ttl cacheMaxTtlSeconds⟩

/-- A store that succeeds leaves one entry of its key, its own; one that
fails adds nothing. -/
theorem cacheStore_contents {s s' : CacheState} (hd : DistinctKeys (contents s.entries)) {key data : List Byte} {ttl : Nat}
    {now : Int} {alloc stored : Bool} (h : cacheStore s key data ttl now alloc = (s', stored)) :
    (stored = true ∧ ∃ cs, cs.Subperm (contents s.entries) ∧ (∀ c ∈ cs, c.key ≠ key) ∧
        (contents s'.entries).Perm (storedContent key data ttl now :: cs)) ∨
    (stored = false ∧ (contents s'.entries).Subperm (contents s.entries)) := by
  obtain ⟨hsub, hkey⟩ := makeRoom_contents hd key data.length
  unfold cacheStore at h
  split at h
  · obtain ⟨rfl, rfl⟩ := Prod.mk.inj h
    exact .inr ⟨rfl, List.Subperm.refl _⟩
  · split at h
    · obtain ⟨rfl, rfl⟩ := Prod.mk.inj h
      exact .inr ⟨rfl, List.Subperm.refl _⟩
    · dsimp only at h
      cases hf : findFree (makeRoom s key data.length).entries with
      | none =>
        rw [hf] at h
        obtain ⟨rfl, rfl⟩ := Prod.mk.inj h
        exact .inr ⟨rfl, hsub⟩
      | some i =>
        rw [hf] at h
        obtain ⟨rfl, rfl⟩ := Prod.mk.inj h
        obtain ⟨e, hi, hp⟩ := findIdx?_get hf
        have hdead : e.live = false := by simpa using hp
        have hset := contents_set hi ⟨key, some data, data.length,
          now + min ttl cacheMaxTtlSeconds, Word.wadd (makeRoom s key data.length).tick 1⟩
        rw [hdead] at hset
        exact .inl ⟨rfl, _, hsub, hkey, hset⟩

theorem cacheInit_contents (s : CacheState) (n t m : Nat) (alloc : Bool) :
    (contents (cacheInit s n t m alloc).1.entries).Subperm (contents s.entries) := by
  unfold cacheInit
  split
  · exact List.Subperm.refl _
  · have : contents (List.replicate n CacheEntry.zero) = [] := by
      simp [contents, CacheEntry.live, CacheEntry.zero]
    simp [this]

end SecureProxy
