/-
The result cache of the reputation module over every run: a slot for each
host, stamps that tell the slots apart, and hits that repeat the last result
of their host while it lasts.

`cache_put` with a lifetime of zero stores nothing, and what was there before
stays (`repRun_cache_zero_ttl`). So the last result is the last one with a
lifetime; where `reputation_init` is given one, that is every result.
-/
import SecureProxy.ReputationVerdicts

namespace SecureProxy

open Bytes Machine Slots

/-! ## The results of a run -/

/-- `p` is the last result of `host`. -/
structure LastPut (puts : List RepPut) (host : List Byte) (p : RepPut) : Prop where
  about : p.host = host
  last : ∃ front back, puts = front ++ p :: back ∧ ∀ q ∈ back, q.host ≠ host

theorem LastPut.new (puts : List RepPut) (p : RepPut) : LastPut (puts ++ [p]) p.host p :=
  ⟨rfl, puts, [], rfl, by simp⟩

theorem LastPut.snoc {puts : List RepPut} {host : List Byte} {p q : RepPut} (h : LastPut puts host p)
    (hq : q.host ≠ host) : LastPut (puts ++ [q]) host p := by
  obtain ⟨hp, front, back, rfl, hback⟩ := h
  refine ⟨hp, front, back ++ [q], by simp, fun x hx => ?_⟩
  rcases List.mem_append.1 hx with hx | hx
  · exact hback x hx
  · rw [List.mem_singleton.1 hx]
    exact hq

/-- The call of `cache_put` that a step makes, with a lifetime or without. -/
def putCall (s : RepSystem) : RepAction → Option RepPut
  | .act i (.settle now) =>
    (settles s i).bind fun (r, answer) =>
      let (res, cacheTtl) := checkResult answer r.ttl
      if s.rep.enabled then some ⟨r.norm, res.verdict, now, cacheTtl⟩ else none
  | _ => none

/-- The calls of `cache_put` of a run. -/
def putCalls : RepSystem → List RepAction → List RepPut
  | _, [] => []
  | s, a :: actions => (putCall s a).toList ++ putCalls (repStep s a).1 actions

theorem putCalls_append (s : RepSystem) (actions actions' : List RepAction) :
    putCalls s (actions ++ actions') = putCalls s actions ++ putCalls (run repStep s actions) actions' := by
  induction actions generalizing s with
  | nil => rfl
  | cons a actions ih => simp [putCalls, run, ih]

def cachePuts (actions : List RepAction) : List RepPut := putCalls {} actions

theorem cachePuts_snoc (actions : List RepAction) (a : RepAction) :
    cachePuts (actions ++ [a]) = cachePuts actions ++ (putCall (repRun actions) a).toList := by
  simp [cachePuts, putCalls_append, putCalls, repRun]

/-- The result has a lifetime. -/
def RepPut.lasts (p : RepPut) : Bool := p.ttl != 0

theorem repStep_puts (s : RepSystem) (a : RepAction) :
    (repStep s a).1.puts = s.puts ++ (putCall s a).toList.filter RepPut.lasts := by
  cases a with
  | init provider timeoutMs ttl => simp [repStep, putCall]
  | shutdown => simp [repStep, putCall]
  | call host => simp [repStep, putCall]
  | act i a =>
    by_cases hsettle : ∃ now, a = .settle now
    · obtain ⟨now, rfl⟩ := hsettle
      cases hc : s.calls[i]? with
      | none => simp [repStep, putCall, settles, hc]
      | some c =>
        obtain ⟨pc, job, helper⟩ := c
        cases pc with
        | settling r next =>
          cases next with
          | undo => simp [repStep, putCall, settles, hc, callStep, settleStep]
          | finish answer =>
            simp only [repStep, putCall, settles, hc, callStep, settleStep, settledPut, Option.bind_some]
            cases s.rep.enabled with
            | false => simp
            | true => by_cases httl : (checkResult answer r.ttl).2 = 0 <;> simp [List.filter_cons, RepPut.lasts, httl]
        | _ => simp [repStep, putCall, settles, hc, callStep, settleStep]
    · have hnone : putCall s (.act i a) = none := by
        cases a <;> first | rfl | exact absurd ⟨_, rfl⟩ hsettle
      rw [hnone]
      rcases repStep_act s i a with heq | ⟨c, m, hc, hm, heq⟩
      · rw [heq]
        simp
      · rw [heq]
        cases hm with
        | settle => exact absurd ⟨_, rfl⟩ hsettle
        | _ => rfl

/-- The results that went into the cache are those with a lifetime. -/
theorem repRun_puts (actions : List RepAction) : (repRun actions).puts = (cachePuts actions).filter RepPut.lasts := by
  induction actions using List.reverseRecOn with
  | nil => rfl
  | append_singleton actions a ih => rw [repRun_snoc, repStep_puts, cachePuts_snoc, List.filter_append, ih]

/-! ## Lifetimes -/

/-- `reputation_init` is given a lifetime for results. -/
def RepAction.ttlGiven : RepAction → Prop
  | .init _ _ ttl => ttl ≠ 0
  | _ => True

/-- No lifetime of zero is in force, or was when a call looked. -/
structure TtlInv (s : RepSystem) : Prop where
  ttl : s.rep.ttlSeconds ≠ 0
  flights : ∀ c ∈ s.calls, ∀ r, c.pc.flight = some r → r.ttl ≠ 0

theorem cachePut_ttlSeconds (g : RepState) (host : List Byte) (v : ReputationVerdict) (ttl : Nat) (now : Int) :
    (cachePut g host v ttl now).ttlSeconds = g.ttlSeconds := by
  unfold cachePut
  split
  · rfl
  · split <;> rfl

theorem Turn.ttl {g : RepState} {since : Nat} {c : Call} {a : CallStep} {m : Moved} (ht : Turn g since c a m)
    (hg : g.ttlSeconds ≠ 0) (hc : ∀ r, c.pc.flight = some r → r.ttl ≠ 0) :
    m.rep.ttlSeconds ≠ 0 ∧ ∀ r, m.call.pc.flight = some r → r.ttl ≠ 0 := by
  cases ht with
  | done henters => cases henters <;> exact ⟨hg, fun _ hr => (nomatch hr)⟩
  | reserve henters =>
    cases henters with
    | missed =>
      refine ⟨hg, fun r hr => ?_⟩
      cases hr
      exact hg
  | prepare | prepareFails | start | startFails | wake | drop | free => exact ⟨hg, fun r hr => hc r hr⟩
  | undo => exact ⟨hg, fun _ hr => (nomatch hr)⟩
  | settle =>
    refine ⟨?_, fun _ hr => (nomatch hr)⟩
    unfold checkFinish
    dsimp only
    split
    · rw [cachePut_ttlSeconds]
      exact hg
    · exact hg
  | answer | giveBack | helperDrop | helperFree => exact ⟨hg, hc⟩

theorem repRun_ttlInv {actions : List RepAction} (h : ∀ a ∈ actions, a.ttlGiven) : TtlInv (repRun actions) := by
  induction actions using List.reverseRecOn with
  | nil => exact ⟨by decide, by simp [repRun, run]⟩
  | append_singleton actions a ih =>
    have hinv := ih fun b hb => h b (List.mem_append_left _ hb)
    rw [repRun_snoc]
    cases a with
    | init provider timeoutMs ttl => exact ⟨h (.init provider timeoutMs ttl) (by simp), hinv.flights⟩
    | shutdown => exact ⟨hinv.ttl, hinv.flights⟩
    | call host =>
      refine ⟨hinv.ttl, fun c hc r hr => ?_⟩
      rcases List.mem_append.1 hc with hc | hc
      · exact hinv.flights c hc r hr
      · rw [List.mem_singleton.1 hc] at hr
        cases hr
    | act i a =>
      rcases repStep_act (repRun actions) i a with heq | ⟨c, m, hc, hm, heq⟩
      · rw [heq]
        exact hinv
      · rw [heq]
        obtain ⟨hg, hflight⟩ := hm.ttl hinv.ttl (hinv.flights c (List.mem_of_getElem? hc))
        exact ⟨hg, flights_set hinv.flights hflight⟩

theorem checkResult_ttl (answer : Option Int) {ttl : Nat} (h : ttl ≠ 0) : (checkResult answer ttl).2 ≠ 0 := by
  unfold checkResult
  split
  · decide
  · split
    · decide
    · decide
    · exact h

theorem putCall_lasts {s : RepSystem} (h : TtlInv s) {a : RepAction} {p : RepPut} (hp : putCall s a = some p) :
    p.lasts = true := by
  cases a with
  | act i a =>
    cases a with
    | settle now =>
      simp only [putCall, settles] at hp
      split at hp
      · rename_i r answer job helper hc
        have hr := h.flights _ (List.mem_of_getElem? hc) r rfl
        simp only [Option.bind_some, Option.ite_none_right_eq_some, Option.some.injEq] at hp
        obtain ⟨-, rfl⟩ := hp
        simpa [RepPut.lasts] using checkResult_ttl answer hr
      · cases hp
    | _ => cases hp
  | _ => cases hp

/-- Where results are given a lifetime, every call of `cache_put` has one. -/
theorem cachePuts_last {actions : List RepAction} (h : ∀ a ∈ actions, a.ttlGiven) :
    (cachePuts actions).filter RepPut.lasts = cachePuts actions := by
  refine List.filter_eq_self.2 ?_
  induction actions using List.reverseRecOn with
  | nil => simp [cachePuts, putCalls]
  | append_singleton actions a ih =>
    have hpre : ∀ b ∈ actions, b.ttlGiven := fun b hb => h b (List.mem_append_left _ hb)
    intro p hp
    rw [cachePuts_snoc] at hp
    rcases List.mem_append.1 hp with hp | hp
    · exact ih hpre p hp
    · exact putCall_lasts (repRun_ttlInv hpre) (Option.mem_toList.1 hp)

/-! ## The cache -/

/-- What holds of the slots, after the results `puts`. -/
structure CacheOk (g : RepState) (puts : List RepPut) : Prop where
  slots : g.cache.length = reputationCacheEntries
  hosts : UniqueHosts g.cache
  stamps : ∀ (i j : Nat) x y, g.cache[i]? = some x → g.cache[j]? = some y → x.used = true → y.used = true →
    x.lastUsed = y.lastUsed → i = j
  ticked : ∀ (i : Nat) e, g.cache[i]? = some e → e.used = true → e.lastUsed ≤ g.tick
  stored : ∀ (i : Nat) e, g.cache[i]? = some e → e.used = true →
    ∃ p, LastPut puts e.host p ∧ p.verdict = e.verdict ∧ p.expires = e.expires

/-- All a step can do to the cache. -/
inductive CacheMoves (g g' : RepState) : Option RepPut → Prop
  | quiet : g'.cache = g.cache → g'.tick = g.tick → CacheMoves g g' none
  | touched (i : Nat) (e : RepEntry) : g.cache[i]? = some e → e.used = true →
      g'.cache = g.cache.set i { e with lastUsed := g.tick + 1 } → g'.tick = g.tick + 1 → CacheMoves g g' none
  | stored (i : Nat) (e : RepEntry) (p : RepPut) : g.cache[i]? = some e → PutSlot g.cache p.host e →
      g'.cache = g.cache.set i (p.entry (g.tick + 1)) → g'.tick = g.tick + 1 → CacheMoves g g' (some p)

theorem Turn.cacheMoves {g : RepState} {since : Nat} {c : Call} {a : CallStep} {m : Moved} (ht : Turn g since c a m)
    (hne : g.cache ≠ []) : CacheMoves g m.rep m.put := by
  cases ht with
  | done henters =>
    cases henters with
    | refused _ => exact .quiet rfl rfl
    | hit _ hfind he _ =>
      obtain ⟨e', he', hused, -⟩ := cacheFind_some hfind
      rw [he] at he'
      cases he'
      exact .touched _ _ he hused rfl rfl
  | reserve henters =>
    cases henters with
    | missed => exact .quiet rfl rfl
  | @settle r answer job helper now =>
    rcases checkFinish_cases g r answer now with ⟨hput, httl, hcache, htick⟩ | ⟨hput, hcache, htick⟩
    · simp only [hput]
      rcases cachePut_cases g _ httl with ⟨hnil, -⟩ | ⟨i, e, he, hslot, hg⟩
      · exact absurd hnil hne
      · rw [hg] at hcache htick
        exact .stored i e _ he hslot hcache htick
    · simp only [hput]
      exact .quiet hcache htick
  | _ => exact .quiet rfl rfl

namespace CacheOk

variable {g g' : RepState} {puts : List RepPut}

theorem zeroed (g : RepState) (puts : List RepPut) (h : g.cache = List.replicate reputationCacheEntries .zero) :
    CacheOk g puts := by
  have hunused : ∀ (i : Nat) e, g.cache[i]? = some e → e.used = false := by
    intro i e he
    rw [h] at he
    exact zeroed_unused (List.mem_of_getElem? he)
  refine ⟨by rw [h, List.length_replicate], h ▸ zeroed_unique _, fun i j x y hx _ hu => ?_, fun i e he hu => ?_,
    fun i e he hu => ?_⟩
  · rw [hunused i x hx] at hu
    cases hu
  · rw [hunused i e he] at hu
    cases hu
  · rw [hunused i e he] at hu
    cases hu

/-- A slot is written with the next stamp. -/
theorem set (h : CacheOk g puts) {i : Nat} {new : RepEntry} (hcache : g'.cache = g.cache.set i new)
    (htick : g'.tick = g.tick + 1) (hnew : new.lastUsed = g.tick + 1) (hhosts : UniqueHosts (g.cache.set i new))
    {puts' : List RepPut} (hslot : ∃ p, LastPut puts' new.host p ∧ p.verdict = new.verdict ∧ p.expires = new.expires)
    (hothers : ∀ (j : Nat) x p, j ≠ i → g.cache[j]? = some x → x.used = true → LastPut puts x.host p →
      LastPut puts' x.host p) : CacheOk g' puts' := by
  have hget : ∀ (j : Nat) x, g'.cache[j]? = some x → (j = i ∧ x = new) ∨ (j ≠ i ∧ g.cache[j]? = some x) := by
    intro j x hj
    rw [hcache] at hj
    by_cases hij : i = j
    · subst hij
      exact .inl ⟨rfl, (eq_of_getElem?_set hj).symm⟩
    · rw [List.getElem?_set_ne hij] at hj
      exact .inr ⟨Ne.symm hij, hj⟩
  refine ⟨by rw [hcache, List.length_set]; exact h.slots, hcache ▸ hhosts, fun j k x y hx hy hux huy heq => ?_,
    fun j x hx hu => ?_, fun j x hx hu => ?_⟩
  · rcases hget j x hx with ⟨rfl, rfl⟩ | ⟨hj, hx⟩ <;> rcases hget k y hy with ⟨rfl, rfl⟩ | ⟨hk, hy⟩
    · rfl
    · have := h.ticked k y hy huy
      omega
    · have := h.ticked j x hx hux
      omega
    · exact h.stamps j k x y hx hy hux huy heq
  · rcases hget j x hx with ⟨rfl, rfl⟩ | ⟨-, hx⟩
    · omega
    · have := h.ticked j x hx hu
      omega
  · rcases hget j x hx with ⟨rfl, rfl⟩ | ⟨hj, hx⟩
    · exact hslot
    · obtain ⟨p, hlast, hp⟩ := h.stored j x hx hu
      exact ⟨p, hothers j x p hj hx hu hlast, hp⟩

theorem moves {put : Option RepPut} (h : CacheOk g puts) (hm : CacheMoves g g' put) : CacheOk g' (puts ++ put.toList) := by
  cases hm with
  | quiet hcache htick =>
    rw [Option.toList_none, List.append_nil]
    exact ⟨hcache ▸ h.slots, hcache ▸ h.hosts, hcache ▸ h.stamps, fun i e he hu => htick ▸ h.ticked i e (hcache ▸ he) hu,
      hcache ▸ h.stored⟩
  | touched i e he hused hcache htick =>
    rw [Option.toList_none, List.append_nil]
    exact h.set hcache htick rfl (h.hosts.touch he _) (h.stored i e he hused) fun _ _ _ _ _ _ hlast => hlast
  | stored i e p he hslot hcache htick =>
    refine h.set hcache htick rfl (h.hosts.put he hslot _) ⟨p, .new puts p, rfl, rfl⟩ fun j x q hj hx hu hlast => ?_
    exact hlast.snoc (hslot.others h.hosts he hj hx hu).symm

end CacheOk

theorem CacheOk.nonempty {g : RepState} {puts : List RepPut} (h : CacheOk g puts) : g.cache ≠ [] := by
  intro hnil
  have := h.slots
  rw [hnil] at this
  cases this

theorem repRun_cacheOk (actions : List RepAction) : CacheOk (repRun actions).rep (repRun actions).puts := by
  induction actions using List.reverseRecOn with
  | nil => exact .zeroed _ _ rfl
  | append_singleton actions a ih =>
    rw [repRun_snoc]
    cases a with
    | init provider timeoutMs ttl => exact .zeroed _ _ rfl
    | shutdown => exact ⟨ih.slots, ih.hosts, ih.stamps, ih.ticked, ih.stored⟩
    | call host => exact ih
    | act i a =>
      rcases repStep_act (repRun actions) i a with heq | ⟨c, m, hc, hm, heq⟩
      · rw [heq]
        exact ih
      · rw [heq]
        exact ih.moves (hm.cacheMoves ih.nonempty)

/-! ## Evictions and hits -/

/-- The slot of another host is taken only where all are in use, and then the
one used least recently. -/
theorem CacheMoves.evicts {g g' : RepState} {put : Option RepPut} (h : CacheMoves g g' put) {i : Nat} {e e' : RepEntry}
    (he : g.cache[i]? = some e) (hu : e.used = true) (he' : g'.cache[i]? = some e') (hne : e'.host ≠ e.host) :
    ∀ x ∈ g.cache, x.used = true ∧ e.lastUsed ≤ x.lastUsed := by
  have hset : ∀ k old new, g.cache[k]? = some old → g'.cache = g.cache.set k new → e = old ∧ e' = new := by
    intro k old new hk hcache
    rw [hcache] at he'
    by_cases hki : k = i
    · subst hki
      rw [he] at hk
      exact ⟨Option.some.inj hk, (eq_of_getElem?_set he').symm⟩
    · rw [List.getElem?_set_ne hki, he] at he'
      cases he'
      exact absurd rfl hne
  cases h with
  | quiet hcache _ =>
    rw [hcache, he] at he'
    cases he'
    exact absurd rfl hne
  | touched k old hk _ hcache _ =>
    obtain ⟨rfl, rfl⟩ := hset k old _ hk hcache
    exact absurd rfl hne
  | stored k old p hk hslot hcache _ =>
    obtain ⟨rfl, rfl⟩ := hset k old _ hk hcache
    cases hslot with
    | own _ hhost => exact absurd hhost.symm hne
    | unused _ hunused =>
      rw [hu] at hunused
      cases hunused
    | leastUsed _ hleast => exact hleast

/-- A check was answered from the cache with `v`: the last result of its host
before its look, which had not expired. -/
def HitFrom (puts : List RepAction → List RepPut) (actions : List RepAction) (i : Nat) (v : ReputationVerdict) : Prop :=
  ∃ pre now post host norm p, actions = pre ++ .act i (.enter now) :: post ∧
    (∃ c, (repRun pre).calls[i]? = some c ∧ c.pc = .entering host) ∧ normaliseHost host = some norm ∧
    LastPut (puts pre) norm p ∧ p.verdict = v ∧ now < p.now + p.ttl

theorem HitFrom.append {puts : List RepAction → List RepPut} {actions : List RepAction} {i : Nat} {v : ReputationVerdict}
    (h : HitFrom puts actions i v) (more : List RepAction) : HitFrom puts (actions ++ more) i v := by
  obtain ⟨pre, now, post, host, norm, p, rfl, hrest⟩ := h
  exact ⟨pre, now, post ++ more, host, norm, p, by simp, hrest⟩

/-- A hit, at the step that makes it. -/
theorem CacheOk.hit {actions : List RepAction} {i : Nat} {c : Call} {host : List Byte} {now : Int} {g : RepState}
    {v : ReputationVerdict} (h : CacheOk (repRun actions).rep (repRun actions).puts)
    (hc : (repRun actions).calls[i]? = some c) (hpc : c.pc = .entering host)
    (henters : Enters (repRun actions).rep host now g (.done ⟨v, .cache⟩)) :
    HitFrom (fun pre => (repRun pre).puts) (actions ++ [.act i (.enter now)]) i v := by
  cases henters with
  | refused hreason => exact absurd rfl hreason
  | @hit _ norm k e hnorm hfind he hfresh =>
    obtain ⟨e', he', hused, hhost⟩ := cacheFind_some hfind
    rw [he] at he'
    cases he'
    obtain ⟨p, hlast, hverdict, hexpires⟩ := h.stored k e he hused
    refine ⟨actions, now, [], host, norm, p, rfl, ⟨c, hc, hpc⟩, hnorm, hhost ▸ hlast, hverdict, ?_⟩
    show now < p.expires
    rw [hexpires]
    exact hfresh

theorem checkResult_not_cache (answer : Option Int) (ttl : Nat) : (checkResult answer ttl).1.reason ≠ .cache := by
  unfold checkResult
  split
  · simp
  · split <;> simp

theorem repRun_hits (actions : List RepAction) : ∀ (i : Nat) c r v, (repRun actions).calls[i]? = some c →
    c.pc = .returned r ⟨v, .cache⟩ → HitFrom (fun pre => (repRun pre).puts) actions i v := by
  induction actions using List.reverseRecOn with
  | nil =>
    intro i c r v hc
    cases hc
  | append_singleton actions a ih =>
    intro i c r v hc hpc
    rcases calls_snoc hc with hold | ⟨host, rfl, -, rfl⟩ | ⟨act, c', m, rfl, hc', hm, -, rfl⟩
    · exact (ih i c r v hold hpc).append [a]
    · cases hpc
    · cases hm with
      | done henters =>
        cases hpc
        exact (repRun_cacheOk actions).hit hc' rfl henters
      | undo => cases hpc
      | settle =>
        simp only [CallerPc.returned.injEq] at hpc
        exact absurd (congrArg ReputationResult.reason hpc.2) (checkResult_not_cache _ _)
      | answer | giveBack | helperDrop | helperFree => exact (ih i _ r v hc' hpc).append _
      | _ => cases hpc

theorem HitFrom.of_eq {puts puts' : List RepAction → List RepPut} {actions : List RepAction} {i : Nat}
    {v : ReputationVerdict} (h : HitFrom puts actions i v) (heq : ∀ pre, pre <+: actions → puts pre = puts' pre) :
    HitFrom puts' actions i v := by
  obtain ⟨pre, now, post, host, norm, p, hactions, hcall, hnorm, hlast, hrest⟩ := h
  exact ⟨pre, now, post, host, norm, p, hactions, hcall, hnorm, heq pre ⟨_, hactions.symm⟩ ▸ hlast, hrest⟩

end SecureProxy
