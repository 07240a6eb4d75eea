/-
When a verdict in the reputation cache survives.

The slot a result goes to is that of its host, else a free one, else the one
used least recently. So a check that failed can only do harm to an entry of
its own host, one that was not there, or had expired, when the check looked:
another check of the host has finished in between.
-/
import SecureProxy.Lib.Slots
import SecureProxy.ReputationSteps

namespace SecureProxy

open Bytes Machine Slots

/-! ## The slot of a result -/

theorem cacheFind_some {cache : List RepEntry} {host : List Byte} {i : Nat} (h : cacheFind cache host = some i) :
    ∃ e, cache[i]? = some e ∧ e.used = true ∧ e.host = host := by
  obtain ⟨e, he, hp⟩ := findIdx?_get h
  simp only [Bool.and_eq_true, beq_iff_eq] at hp
  exact ⟨e, he, hp⟩

theorem cacheFind_none {cache : List RepEntry} {host : List Byte} (h : cacheFind cache host = none) :
    ∀ e ∈ cache, e.used = true → e.host ≠ host := by
  intro e he hu heq
  have := List.findIdx?_eq_none_iff.1 h e he
  simp [hu, heq] at this

/-- Without a free slot it is a scan for the smallest stamp. -/
theorem cachePutSlot_eq (cache : List RepEntry) (i : Nat) (best : Option (Nat × Nat)) :
    cachePutSlot cache i best = match cache.findIdx? fun e => !e.used with
      | some k => some (i + k)
      | none => (leastScan (fun _ => true) RepEntry.lastUsed cache i best).map (·.1) := by
  induction cache generalizing i best with
  | nil => rfl
  | cons e es ih =>
    cases hu : e.used with
    | false => simp [cachePutSlot, hu, List.findIdx?_cons]
    | true =>
      simp only [cachePutSlot, hu, Bool.not_true, Bool.false_eq_true, if_false, ih, List.findIdx?_cons, leastScan,
        Bool.true_and]
      cases es.findIdx? fun e => !e.used with
      | none => rfl
      | some k =>
        simp only [Option.map_some, Option.some.injEq]
        omega

/-- Why a result of `host` may go to the slot that holds `e`. -/
inductive PutSlot (cache : List RepEntry) (host : List Byte) (e : RepEntry) : Prop
  | own : e.used = true → e.host = host → PutSlot cache host e
  | unused : (∀ x ∈ cache, x.used = true → x.host ≠ host) → e.used = false → PutSlot cache host e
  | leastUsed : (∀ x ∈ cache, x.used = true → x.host ≠ host) → (∀ x ∈ cache, x.used = true ∧ e.lastUsed ≤ x.lastUsed) →
      PutSlot cache host e

theorem cachePutSlot_some {cache : List RepEntry} {host : List Byte} {i : Nat}
    (h : (cacheFind cache host).orElse (fun _ => cachePutSlot cache 0 none) = some i) :
    ∃ e, cache[i]? = some e ∧ PutSlot cache host e := by
  cases hf : cacheFind cache host with
  | some k =>
    rw [hf] at h
    obtain rfl : k = i := by simpa using h
    obtain ⟨e, he, hu, hh⟩ := cacheFind_some hf
    exact ⟨e, he, .own hu hh⟩
  | none =>
    have hnone := cacheFind_none hf
    rw [hf, Option.orElse_none, cachePutSlot_eq] at h
    cases hfree : cache.findIdx? fun e => !e.used with
    | some k =>
      rw [hfree] at h
      obtain rfl : k = i := by simpa using h
      obtain ⟨e, he, hp⟩ := findIdx?_get hfree
      exact ⟨e, he, .unused hnone (by simpa using hp)⟩
    | none =>
      rw [hfree] at h
      have hused : ∀ x ∈ cache, x.used = true := fun x hx => by
        simpa using List.findIdx?_eq_none_iff.1 hfree x hx
      obtain ⟨⟨k, t⟩, hscan, rfl⟩ := Option.map_eq_some_iff.1 h
      have hleast : IsLeast (fun _ => true) RepEntry.lastUsed cache (some (k, t)) := hscan ▸ leastScan_isLeast cache
      obtain ⟨⟨e, he, -, rfl⟩, hmin⟩ := hleast
      exact ⟨e, he, .leastUsed hnone fun x hx => ⟨hused x hx, hmin x hx rfl⟩⟩

/-- Only an empty table has no slot. -/
theorem cachePutSlot_none {cache : List RepEntry} {host : List Byte}
    (h : (cacheFind cache host).orElse (fun _ => cachePutSlot cache 0 none) = none) : cache = [] := by
  cases hf : cacheFind cache host with
  | some k =>
    rw [hf] at h
    cases h
  | none =>
    rw [hf, Option.orElse_none, cachePutSlot_eq] at h
    cases hfree : cache.findIdx? fun e => !e.used with
    | some k =>
      rw [hfree] at h
      cases h
    | none =>
      rw [hfree] at h
      have hleast : IsLeast (fun _ => true) RepEntry.lastUsed cache _ := leastScan_isLeast cache
      rw [Option.map_eq_none_iff.1 h] at hleast
      refine List.eq_nil_iff_forall_not_mem.2 fun e he => ?_
      cases hleast e he

/-- What `cache_put` writes. -/
def RepPut.entry (p : RepPut) (stamp : Nat) : RepEntry := ⟨p.host, p.verdict, p.expires, stamp, true⟩

theorem cachePut_cases (g : RepState) (p : RepPut) (httl : p.ttl ≠ 0) :
    g.cache = [] ∧ cachePut g p.host p.verdict p.ttl p.now = g ∨
    ∃ i e, g.cache[i]? = some e ∧ PutSlot g.cache p.host e ∧
      cachePut g p.host p.verdict p.ttl p.now =
        { g with cache := g.cache.set i (p.entry (g.tick + 1)), tick := g.tick + 1 } := by
  unfold cachePut
  rw [if_neg httl]
  split
  · rename_i hnone
    exact .inl ⟨cachePutSlot_none hnone, rfl⟩
  · rename_i i hi
    obtain ⟨e, he, hslot⟩ := cachePutSlot_some hi
    exact .inr ⟨i, e, he, hslot, rfl⟩

/-! ## What a step does to the cache -/

/-- A wait that ended without a verdict. -/
def failed : Option Int → Bool
  | none => true
  | some v =>
    match ReputationVerdict.ofInt? v with
    | none | some .unavailable => true
    | _ => false

theorem checkResult_unavailable {answer : Option Int} {ttl : Nat} :
    (checkResult answer ttl).1.verdict = .unavailable ↔ failed answer = true := by
  unfold checkResult failed
  split
  · simp
  · split <;> simp_all

/-- All a step of a call can do to the cache and to the calls in flight. -/
inductive CallMoves (g : RepState) (since : Nat) (c : Call) (m : Moved) : CallStep → Prop
  | quiet {a : CallStep} : m.rep.cache = g.cache → m.put = none → (∀ r, m.call.pc.flight = some r → c.pc.flight = some r) →
      CallMoves g since c m a
  | hit (now : Int) (i : Nat) (e : RepEntry) : g.cache[i]? = some e →
      m.rep.cache = g.cache.set i { e with lastUsed := g.tick + 1 } → m.put = none → m.call.pc.flight = none →
      CallMoves g since c m (.enter now)
  | missed (now : Int) (r : Reservation) : m.call.pc = .reserved r → r.seenAt = now → r.since = since →
      m.rep.cache = g.cache → m.put = none →
      (∀ i e, cacheFind g.cache r.norm = some i → g.cache[i]? = some e → e.expires ≤ now) →
      CallMoves g since c m (.enter now)
  | stored (now : Int) (r : Reservation) (answer : Option Int) (p : RepPut) : c.pc = .settling r (.finish answer) →
      m.call.pc.flight = none → m.put = some p → p.ttl ≠ 0 → p.host = r.norm → p.now = now →
      p.verdict = (checkResult answer r.ttl).1.verdict →
      m.rep.cache = (cachePut g p.host p.verdict p.ttl p.now).cache → CallMoves g since c m (.settle now)

/-- The last section stores a result, or leaves the cache as it is. -/
theorem checkFinish_cases (g : RepState) (r : Reservation) (answer : Option Int) (now : Int) :
    let g' := checkFinish g r.norm (checkResult answer r.ttl).1 (checkResult answer r.ttl).2 now
    let p : RepPut := ⟨r.norm, (checkResult answer r.ttl).1.verdict, now, (checkResult answer r.ttl).2⟩
    (settledPut g r answer now = some p ∧ p.ttl ≠ 0 ∧ g'.cache = (cachePut g p.host p.verdict p.ttl p.now).cache ∧
      g'.tick = (cachePut g p.host p.verdict p.ttl p.now).tick) ∨
    settledPut g r answer now = none ∧ g'.cache = g.cache ∧ g'.tick = g.tick := by
  intro g' p
  by_cases hput : g.enabled = true ∧ p.ttl ≠ 0
  · obtain ⟨hen, httl⟩ := hput
    refine .inl ⟨?_, httl, by simp [g', p, checkFinish, hen], by simp [g', p, checkFinish, hen]⟩
    unfold settledPut
    dsimp only
    exact if_pos (by simpa [hen] using httl)
  · refine .inr ⟨?_, ?_⟩
    · unfold settledPut
      dsimp only
      exact if_neg (by simpa using hput)
    · cases hen : g.enabled with
      | false => simp [g', checkFinish, hen]
      | true =>
        have httl : (checkResult answer r.ttl).2 = 0 := by simpa [hen] using hput
        simp [g', checkFinish, hen, cachePut, httl]

/-- The last section of a check that was answered, or timed out. -/
theorem settle_moves (g : RepState) (since : Nat) (r : Reservation) (answer : Option Int) (job : Option Job)
    (helper : HelperPc) (now : Int) :
    CallMoves g since ⟨.settling r (.finish answer), job, helper⟩
      { rep := checkFinish g r.norm (checkResult answer r.ttl).1 (checkResult answer r.ttl).2 now
        call := ⟨.returned (some r) (checkResult answer r.ttl).1, job, helper⟩, put := settledPut g r answer now }
      (.settle now) := by
  rcases checkFinish_cases g r answer now with ⟨hput, httl, hcache, -⟩ | ⟨hput, hcache, -⟩
  · exact .stored now r answer _ rfl rfl hput httl rfl rfl rfl hcache
  · exact .quiet hcache hput (by simp [CallerPc.flight])

theorem callStep_moves {g : RepState} {since : Nat} {c : Call} {a : CallStep} {m : Moved}
    (h : callStep g since c a = some m) : CallMoves g since c m a := by
  cases callStep_turn h with
  | done henters =>
    cases henters with
    | refused _ => exact .quiet rfl rfl (by simp [CallerPc.flight])
    | hit _ _ he _ => exact .hit _ _ _ he rfl rfl rfl
  | reserve henters =>
    cases henters with
    | missed _ hexp _ => exact .missed _ _ rfl rfl rfl rfl rfl hexp
  | undo => exact .quiet rfl rfl (by simp [CallerPc.flight])
  | settle => exact settle_moves ..
  | prepare | prepareFails | start | startFails | wake | drop | free =>
    exact .quiet rfl rfl (by simp [CallerPc.flight])
  | answer | giveBack | helperDrop | helperFree => exact .quiet rfl rfl fun _ hr => hr

/-! ## The invariant -/

/-- No two used slots are of one host. -/
def UniqueHosts (cache : List RepEntry) : Prop :=
  ∀ (i j : Nat) (x y : RepEntry), cache[i]? = some x → cache[j]? = some y → x.used = true → y.used = true → x.host = y.host → i = j

theorem eq_of_getElem?_set {cache : List RepEntry} {i : Nat} {new x : RepEntry} (h : (cache.set i new)[i]? = some x) :
    new = x := by
  rw [List.getElem?_set_self'] at h
  obtain ⟨_, -, rfl⟩ := Option.map_eq_some_iff.1 h
  rfl

theorem UniqueHosts.set {cache : List RepEntry} (h : UniqueHosts cache) {i : Nat} {new : RepEntry}
    (hnew : ∀ j x, j ≠ i → cache[j]? = some x → x.used = true → new.used = true → x.host ≠ new.host) :
    UniqueHosts (cache.set i new) := by
  intro a b x y ha hb hx hy heq
  by_cases hai : i = a
  · by_cases hbi : i = b
    · exact hai.symm.trans hbi
    · subst hai
      obtain rfl : new = x := eq_of_getElem?_set ha
      rw [List.getElem?_set_ne hbi] at hb
      exact absurd heq.symm (hnew b y (Ne.symm hbi) hb hy hx)
  · rw [List.getElem?_set_ne hai] at ha
    by_cases hbi : i = b
    · subst hbi
      obtain rfl : new = y := eq_of_getElem?_set hb
      exact absurd heq (hnew a x (Ne.symm hai) ha hx hy)
    · rw [List.getElem?_set_ne hbi] at hb
      exact h a b x y ha hb hx hy heq

theorem UniqueHosts.touch {cache : List RepEntry} (h : UniqueHosts cache) {i : Nat} {e : RepEntry}
    (hi : cache[i]? = some e) (stamp : Nat) : UniqueHosts (cache.set i { e with lastUsed := stamp }) :=
  h.set fun j x hj hx hu he heq => hj (h j i x e hx hi hu he heq)

/-- A result goes to the only slot its host can have. -/
theorem PutSlot.others {cache : List RepEntry} {host : List Byte} {i : Nat} {e : RepEntry} (hslot : PutSlot cache host e)
    (h : UniqueHosts cache) (hi : cache[i]? = some e) {j : Nat} {x : RepEntry} (hj : j ≠ i) (hx : cache[j]? = some x)
    (hu : x.used = true) : x.host ≠ host := by
  intro heq
  cases hslot with
  | own hused hhost => exact hj (h j i x e hx hi hu hused (heq.trans hhost.symm))
  | unused hnone _ => exact hnone x (List.mem_of_getElem? hx) hu heq
  | leastUsed hnone _ => exact hnone x (List.mem_of_getElem? hx) hu heq

theorem UniqueHosts.put {cache : List RepEntry} (h : UniqueHosts cache) {p : RepPut} {i : Nat} {e : RepEntry}
    (hi : cache[i]? = some e) (hslot : PutSlot cache p.host e) (stamp : Nat) :
    UniqueHosts (cache.set i (p.entry stamp)) :=
  h.set fun _ _ hj hx hu _ => hslot.others h hi hj hx hu

/-- A verdict that is there for a call's host had expired when the call
looked, or has been put there since. -/
structure Seen (cache : List RepEntry) (puts : List RepPut) (r : Reservation) : Prop where
  since_le : r.since ≤ puts.length
  entries : ∀ e ∈ cache, e.used = true → e.host = r.norm → e.verdict ≠ .unavailable →
    e.expires ≤ r.seenAt ∨ ∃ p ∈ puts.drop r.since, p.host = r.norm ∧ p.verdict = e.verdict ∧ p.expires = e.expires

theorem Seen.touch {cache : List RepEntry} {puts : List RepPut} {r : Reservation} (h : Seen cache puts r) {i : Nat}
    {e : RepEntry} (hi : cache[i]? = some e) (stamp : Nat) : Seen (cache.set i { e with lastUsed := stamp }) puts r := by
  refine ⟨h.since_le, fun x hx => ?_⟩
  rcases List.mem_or_eq_of_mem_set hx with hx | rfl
  · exact h.entries x hx
  · exact h.entries e (List.mem_of_getElem? hi)

theorem Seen.snoc {cache cache' : List RepEntry} {puts : List RepPut} {r : Reservation} (h : Seen cache puts r)
    (p : RepPut) (hcache : ∀ x ∈ cache', x ∈ cache ∨ ∃ stamp, x = p.entry stamp) : Seen cache' (puts ++ [p]) r := by
  have hdrop : (puts ++ [p]).drop r.since = puts.drop r.since ++ [p] := List.drop_append_of_le_length h.since_le
  refine ⟨by simpa using Nat.le_succ_of_le h.since_le, fun x hx hu hh hv => ?_⟩
  rw [hdrop]
  rcases hcache x hx with hx | ⟨stamp, rfl⟩
  · rcases h.entries x hx hu hh hv with hexp | ⟨q, hq, hfacts⟩
    · exact .inl hexp
    · exact .inr ⟨q, List.mem_append_left _ hq, hfacts⟩
  · exact .inr ⟨p, by simp, hh, rfl, rfl⟩

/-- What holds of the cache, the calls and the results put so far. -/
structure RepInv (cache : List RepEntry) (calls : List Call) (puts : List RepPut) : Prop where
  hosts : UniqueHosts cache
  flights : ∀ c ∈ calls, ∀ r, c.pc.flight = some r → Seen cache puts r

def RepSystem.Inv (s : RepSystem) : Prop := RepInv s.rep.cache s.calls s.puts

/-- A zeroed cache has nothing to lose. -/
theorem zeroed_unused {n : Nat} {e : RepEntry} (he : e ∈ List.replicate n RepEntry.zero) : e.used = false := by
  rw [List.eq_of_mem_replicate he]
  rfl

theorem zeroed_unique (n : Nat) : UniqueHosts (List.replicate n RepEntry.zero) := by
  intro i j x y hx _ hu
  rw [zeroed_unused (List.mem_of_getElem? hx)] at hu
  cases hu

theorem RepSystem.Inv.start : RepSystem.Inv {} := ⟨zeroed_unique _, by simp⟩

/-- The other calls in flight, and the one that moved. -/
theorem flights_set {calls : List Call} {i : Nat} {new : Call} {P : Reservation → Prop}
    (hold : ∀ c ∈ calls, ∀ r, c.pc.flight = some r → P r) (hnew : ∀ r, new.pc.flight = some r → P r) :
    ∀ c ∈ calls.set i new, ∀ r, c.pc.flight = some r → P r := by
  intro c hc
  rcases List.mem_or_eq_of_mem_set hc with hc | rfl
  · exact hold c hc
  · exact hnew

theorem RepSystem.Inv.step {s : RepSystem} (h : s.Inv) (a : RepAction) : (repStep s a).1.Inv := by
  cases a with
  | init provider timeoutMs ttl =>
    refine ⟨zeroed_unique _, fun c hc r hr => ⟨(h.flights c hc r hr).since_le, fun e he hu => ?_⟩⟩
    rw [zeroed_unused he] at hu
    cases hu
  | shutdown => exact ⟨h.hosts, h.flights⟩
  | call host =>
    refine ⟨h.hosts, fun c hc r hr => ?_⟩
    rcases List.mem_append.1 hc with hc | hc
    · exact h.flights c hc r hr
    · rw [List.mem_singleton.1 hc] at hr
      cases hr
  | act i a =>
    simp only [repStep]
    cases hm : s.calls[i]?.bind fun c => callStep s.rep s.puts.length c a with
    | none => exact h
    | some m =>
      obtain ⟨c, hc, hstep⟩ := Option.bind_eq_some_iff.1 hm
      have hmem := List.mem_of_getElem? hc
      show RepInv m.rep.cache (s.calls.set i m.call) (s.puts ++ m.put.toList)
      cases callStep_moves hstep with
      | quiet hcache hput hflight =>
        rw [hput, hcache, Option.toList_none, List.append_nil]
        exact ⟨h.hosts, flights_set h.flights fun r hr => h.flights c hmem r (hflight r hr)⟩
      | hit now k e he hcache hput hflight =>
        rw [hput, hcache, Option.toList_none, List.append_nil]
        refine ⟨h.hosts.touch he _, flights_set (fun c hc r hr => (h.flights c hc r hr).touch he _) ?_⟩
        rw [hflight]
        simp
      | missed now r hpc hat hsince hcache hput hexp =>
        rw [hput, hcache, Option.toList_none, List.append_nil]
        refine ⟨h.hosts, flights_set h.flights fun r' hr' => ?_⟩
        rw [hpc, CallerPc.flight, Option.some.injEq] at hr'
        subst hr'
        refine ⟨hsince.le, fun e he hu hh _ => .inl ?_⟩
        -- the slot of the host is the only one, and the look found it expired
        cases hf : cacheFind s.rep.cache r.norm with
        | none => exact absurd hh (cacheFind_none hf e he hu)
        | some k =>
          obtain ⟨x, hx, hxu, hxh⟩ := cacheFind_some hf
          obtain ⟨j, hj⟩ := List.mem_iff_getElem?.1 he
          obtain rfl := h.hosts j k e x hj hx hu hxu (hh.trans hxh.symm)
          rw [hat]
          exact hexp j e hf hj
      | stored now r answer p hpc hflight hput httl hhost hnow hverdict hcache =>
        rw [hput, hcache]
        rcases cachePut_cases s.rep p httl with ⟨-, hsame⟩ | ⟨k, e, he, hslot, hset⟩
        · rw [hsame]
          refine ⟨h.hosts, flights_set (fun c hc r hr => (h.flights c hc r hr).snoc p fun x hx => .inl hx) ?_⟩
          rw [hflight]
          simp
        · rw [hset]
          refine ⟨h.hosts.put he hslot _, flights_set (fun c hc r hr => (h.flights c hc r hr).snoc p ?_) ?_⟩
          · intro x hx
            exact (List.mem_or_eq_of_mem_set hx).imp id fun heq => ⟨_, heq⟩
          · rw [hflight]
            simp

/-! ## Verdicts that are kept -/

/-- What may become of a slot that holds the unexpired verdict `e`, in a step
that is the end of a failed check or is not. -/
inductive Kept (cache : List RepEntry) (failedCheck : Bool) (e e' : RepEntry) : Prop
  | same : e'.host = e.host → e'.verdict = e.verdict → e'.expires = e.expires → Kept cache failedCheck e e'
  /-- Another check of the host brought a verdict. -/
  | renewed : failedCheck = false → e'.host = e.host → e'.verdict ≠ .unavailable → Kept cache failedCheck e e'
  /-- A result of another host took the slot, the least recently used of all. -/
  | evicted : e'.host ≠ e.host → (∀ x ∈ cache, x.used = true ∧ e.lastUsed ≤ x.lastUsed) → Kept cache failedCheck e e'

/-- No unexpired verdict is lost but to eviction. -/
def KeepsVerdicts (cache cache' : List RepEntry) (failedCheck : Bool) (now : Int) : Prop :=
  ∀ (i : Nat) (e : RepEntry), cache[i]? = some e → e.used = true → e.verdict ≠ .unavailable → now < e.expires →
    ∃ e', cache'[i]? = some e' ∧ e'.used = true ∧ Kept cache failedCheck e e'

/-- The wait the last section of a call is about, and its reservation. -/
def settles (s : RepSystem) (i : Nat) : Option (Reservation × Option Int) :=
  match s.calls[i]? with
  | some ⟨.settling r (.finish answer), _, _⟩ => some (r, answer)
  | _ => none

/-- The call at `i` is about to note a failure. -/
def settlesFailure (s : RepSystem) (i : Nat) : Bool := (settles s i).any fun x => failed x.2

/-- A step keeps the unexpired verdicts. Only `reputation_init` clears the
cache, and only the first and the last section of a check touch it. -/
def StepKeeps (s : RepSystem) (a : RepAction) : Prop :=
  match a with
  | .init .. => True
  | .act _ (.enter now) => KeepsVerdicts s.rep.cache (repStep s a).1.rep.cache false now
  | .act i (.settle now) => KeepsVerdicts s.rep.cache (repStep s a).1.rep.cache (settlesFailure s i) now
  | _ => (repStep s a).1.rep.cache = s.rep.cache

/-- Where a check has failed, all that other checks have put for its host
since its own look has expired, and the clock has not been set back. -/
def Unraced (s : RepSystem) : RepAction → Prop
  | .act i (.settle now) => ∀ x ∈ settles s i, failed x.2 = true →
      x.1.seenAt ≤ now ∧
      ∀ p ∈ s.puts.drop x.1.since, p.host = x.1.norm → p.verdict ≠ .unavailable → p.expires ≤ now
  | _ => True

instance (s : RepSystem) : ∀ a : RepAction, Decidable (Unraced s a)
  | .act i (.settle _) => inferInstanceAs (Decidable (∀ x ∈ settles s i, _ → _ ∧ ∀ p ∈ _, _ → _ → _))
  | .act _ (.enter _) | .act _ (.prepare _) | .act _ (.start _) | .act _ .wake | .act _ .drop | .act _ .free
  | .act _ (.answer _) | .act _ .giveBack | .act _ .helperDrop | .act _ .helperFree => isTrue trivial
  | .init .. | .shutdown | .call _ => isTrue trivial

theorem KeepsVerdicts.refl (cache : List RepEntry) (failedCheck : Bool) (now : Int) :
    KeepsVerdicts cache cache failedCheck now :=
  fun _ e he hu _ _ => ⟨e, he, hu, .same rfl rfl rfl⟩

/-- One slot is written. -/
theorem KeepsVerdicts.set {cache : List RepEntry} {k : Nat} {e new : RepEntry} {failedCheck : Bool} {now : Int}
    (hk : cache[k]? = some e)
    (h : e.used = true → e.verdict ≠ .unavailable → now < e.expires → new.used = true ∧ Kept cache failedCheck e new) :
    KeepsVerdicts cache (cache.set k new) failedCheck now := by
  intro i x hx hu hv hexp
  by_cases hik : k = i
  · subst hik
    rw [hk] at hx
    cases hx
    obtain ⟨hused, hkept⟩ := h hu hv hexp
    exact ⟨new, by rw [List.getElem?_set_self', hk]; rfl, hused, hkept⟩
  · exact ⟨x, by rw [List.getElem?_set_ne hik]; exact hx, hu, .same rfl rfl rfl⟩

/-- A result goes into the cache without loss, if it is a verdict or no
unexpired one of its host is there. -/
theorem cachePut_keeps {g : RepState} {p : RepPut} (httl : p.ttl ≠ 0) {failedCheck : Bool}
    (hfail : p.verdict = .unavailable ↔ failedCheck = true)
    (hold : failedCheck = true → ∀ e ∈ g.cache, e.used = true → e.host = p.host → e.verdict ≠ .unavailable →
      e.expires ≤ p.now) :
    KeepsVerdicts g.cache (cachePut g p.host p.verdict p.ttl p.now).cache failedCheck p.now := by
  rcases cachePut_cases g p httl with ⟨-, hsame⟩ | ⟨k, e, he, hslot, hset⟩
  · rw [hsame]
    exact .refl _ _ _
  · rw [hset]
    refine .set he fun hu hv hexp => ⟨rfl, ?_⟩
    cases hslot with
    | own _ hhost =>
      cases hf : failedCheck with
      | true =>
        have := hold hf e (List.mem_of_getElem? he) hu hhost hv
        omega
      | false => exact .renewed rfl hhost.symm fun hun => by simp [hfail.1 hun] at hf
    | unused _ hun =>
      rw [hu] at hun
      cases hun
    | leastUsed hnone hall => exact .evicted (fun heq => hnone e (List.mem_of_getElem? he) hu heq.symm) hall

theorem RepSystem.Inv.keeps {s : RepSystem} (h : s.Inv) {a : RepAction} (hok : Unraced s a) : StepKeeps s a := by
  cases a with
  | init provider timeoutMs ttl => trivial
  | shutdown => rfl
  | call host => rfl
  | act i a =>
    cases hm : s.calls[i]?.bind fun c => callStep s.rep s.puts.length c a with
    | none =>
      have heq : (repStep s (.act i a)).1 = s := by simp only [repStep, hm]
      cases a <;> simp only [StepKeeps, heq] <;> exact .refl _ _ _
    | some m =>
      have hcache' : (repStep s (.act i a)).1.rep.cache = m.rep.cache := by simp only [repStep, hm]
      obtain ⟨c, hc, hstep⟩ := Option.bind_eq_some_iff.1 hm
      cases callStep_moves hstep with
      | quiet hcache _ _ =>
        rw [hcache] at hcache'
        cases a <;> simp only [StepKeeps, hcache'] <;> exact .refl _ _ _
      | hit now k e he hcache _ _ =>
        simp only [StepKeeps, hcache', hcache]
        exact .set he fun hu _ _ => ⟨hu, .same rfl rfl rfl⟩
      | missed now r _ _ _ hcache _ _ =>
        simp only [StepKeeps, hcache', hcache]
        exact .refl _ _ _
      | stored now r answer p hpc _ _ httl hhost hnow hverdict hcache =>
        have hsettles : settles s i = some (r, answer) := by
          obtain ⟨pc, job, helper⟩ := c
          obtain rfl : pc = .settling r (.finish answer) := hpc
          simp [settles, hc]
        subst hnow
        simp only [StepKeeps, hcache', hcache]
        have hfail : settlesFailure s i = failed answer := by simp [settlesFailure, hsettles]
        refine cachePut_keeps httl (by rw [hverdict, hfail]; exact checkResult_unavailable) fun hbad e he hu hh hv => ?_
        rw [hfail] at hbad
        obtain ⟨hclock, hputs⟩ := hok (r, answer) hsettles hbad
        have hseen := h.flights c (List.mem_of_getElem? hc) r (by rw [hpc]; rfl)
        rcases hseen.entries e he hu (hh.trans hhost) hv with hexp | ⟨q, hq, hqh, hqv, hqe⟩
        · exact Int.le_trans hexp hclock
        · rw [← hqe]
          exact hputs q hq hqh (hqv ▸ hv)

/-- **An unexpired verdict is lost to eviction alone**, in every run in which
a failed check is not overtaken by another check of its host: however the
calls and their helpers are interleaved, whatever the provider answers and
when. -/
theorem repRun_keeps {actions : List RepAction} (h : Along Unraced repStep {} actions) :
    ∀ pre a post, actions = pre ++ a :: post → StepKeeps (repRun pre) a := by
  intro pre a post heq
  subst heq
  obtain ⟨hpre, hok, -⟩ := along_append.1 h
  have hinv : (repRun pre).Inv := run_invariant (fun _ a hs _ => hs.step a) RepSystem.Inv.start hpre
  exact hinv.keeps hok

/-- A whole check, whose provider answers `v` in time. -/
def answeredCheck (i : Nat) (v now : Int) : List RepAction :=
  [.act i (.answer v), .act i .wake, .act i .drop, .act i .free, .act i (.settle now)]

/-- A check whose wait has timed out. -/
def abandonedCheck (i : Nat) (now : Int) : List RepAction :=
  [.act i .wake, .act i .drop, .act i .free, .act i (.settle now)]

/-- Two checks of one host, both in flight. -/
def twoChecks : List RepAction :=
  let host := bytes "evil.example"
  [.init 1 1500 300, .call host, .call host, .act 0 (.enter 100), .act 1 (.enter 100), .act 0 (.prepare true),
    .act 1 (.prepare true), .act 0 (.start true), .act 1 (.start true)]

/-- The first fails before the second brings its verdict. -/
theorem repRun_keeps_ordered :
    let actions := twoChecks ++ abandonedCheck 0 102 ++ answeredCheck 1 2 103
    Along Unraced repStep {} actions ∧ ∀ pre a post, actions = pre ++ a :: post → StepKeeps (repRun pre) a := by
  intro actions
  have h : Along Unraced repStep {} actions := by decide +kernel
  exact ⟨h, repRun_keeps h⟩

/-- The other way round, the failure takes the place of the verdict: at 102
the host is still known to be malicious until 401, and then to be unknown. -/
theorem repRun_overtaken :
    let s := repRun (twoChecks ++ answeredCheck 0 2 101 ++ (abandonedCheck 1 102).dropLast)
    let a : RepAction := .act 1 (.settle 102)
    s.rep.cache[0]? = some ⟨bytes "evil.example", .malicious, 401, 1, true⟩ ∧
      (repStep s a).1.rep.cache[0]? = some ⟨bytes "evil.example", .unavailable, 107, 2, true⟩ ∧ ¬ StepKeeps s a := by
  intro s a
  have hbefore : s.rep.cache[0]? = some ⟨bytes "evil.example", .malicious, 401, 1, true⟩ := by decide +kernel
  have hafter : (repStep s a).1.rep.cache[0]? = some ⟨bytes "evil.example", .unavailable, 107, 2, true⟩ := by
    decide +kernel
  refine ⟨hbefore, hafter, fun h => ?_⟩
  obtain ⟨e', he', -, hkept⟩ := h 0 _ hbefore rfl (by decide) (by decide)
  rw [hafter] at he'
  cases he'
  cases hkept with
  | same _ hverdict _ => cases hverdict
  | renewed _ _ hverdict => exact hverdict rfl
  | evicted hhost _ => exact hhost rfl

end SecureProxy
