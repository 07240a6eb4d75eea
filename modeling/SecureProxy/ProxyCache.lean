/-
What a client of the running proxy can get from its cache.

The cache is the one `Workers` is about, seen through the server (`SeenAs`): so
every cached response has its store and its fetch before it. `proxy_cached`
adds the rules the response met in its own header, that it is within the
lifetime this gives it, and that the client asking was let through by the
operator's files, as if it had been sent to the origin.
-/
import SecureProxy.CacheRules
import SecureProxy.Proxy

namespace SecureProxy

open Bytes Progs

/-! ## The server as its cache -/

theorem mainStep_cache (s : ServerState) (m : MainMove) :
    (mainStep s m).cache = s.cache ∨ (mainStep s m).cache = cacheDestroy s.cache := by
  cases m with
  | signal => exact .inl rfl
  | fail =>
    refine .inl ?_
    cases hm : s.main <;> simp [mainStep, hm]
  | go =>
    cases hm : s.main with
    | admitting =>
      refine .inl ?_
      simp only [mainStep, hm]
      split <;> rfl
    | tearingDown next =>
      cases next with
      | cacheDestroy => exact .inr (by simp [mainStep, hm, teardownStep])
      | _ => exact .inl (by simp [mainStep, hm, teardownStep])
    | _ => exact .inl (by simp [mainStep, hm])

theorem serveGlobals_cache {s s' : ServerState} {q : Query} {a : q.Answer} {now : Int} (h : serveGlobals s q a now s') :
    serveCache s.cache q a now s'.cache := by
  cases q with
  | nextRequestId | policyCheckHost | reputationIsEnabled => rw [h.2]; rfl
  | reputationCheck host =>
    rw [show s' = s from h]
    rfl
  | leave =>
    rw [show s' = _ from h]
    rfl
  | cacheIsEnabled | cacheLookup | cacheStore =>
    obtain ⟨cache, hcache, rfl⟩ := h
    exact hcache

theorem server_seenAs_cache (g : Globals) : (server g).SeenAs (cacheService g) ServerState.cache ServerNote.now where
  prog := rfl
  start s x s' h := by
    obtain ⟨-, rfl⟩ := h
    rfl
  serve s q a n s' h := serveGlobals_cache h.2.2
  outside s s' h := by
    obtain ⟨m, rfl⟩ := h
    rcases mainStep_cache s m with hsame | hdestroyed
    · exact .inl hsame
    · exact .inr (.inl hdestroyed)

/-- The cache `main` starts with. -/
theorem started_cache_reach (g : Globals) {env : StartEnv} {s : Started} (h : Configured env s) :
    Pool.Reach (cacheService g) {} ⟨s.serverState.cache, [], []⟩ := by
  have hcache : s.serverState.cache = s.cache := rfl
  rw [hcache, h.cache]
  split
  · exact .init
  · exact .step .init (.outside (.inr ⟨_, _, _, _, rfl⟩)) trivial

/-! ## A cache that is off -/

def isHit : Obs Query.Answer ClientEvent → Bool
  | .asked (.cacheLookup _) (some _) => true
  | _ => false

theorem serveCache_off {s s' : CacheState} {q : Query} {a : q.Answer} {now : Int} (h : serveCache s q a now s')
    (hoff : s.enabled = false) : s'.enabled = false ∧ isHit (.asked q a) = false := by
  cases q with
  | cacheIsEnabled =>
    rw [h.2]
    exact ⟨hoff, rfl⟩
  | cacheLookup key =>
    obtain ⟨alloc, h⟩ := h
    simp only [cacheLookup, hoff, Bool.not_false, if_true, Prod.mk.injEq] at h
    obtain ⟨rfl, rfl⟩ := h
    exact ⟨hoff, rfl⟩
  | cacheStore key data ttl =>
    obtain ⟨alloc, h⟩ := h
    refine ⟨?_, rfl⟩
    simp only [cacheStore, CacheState.accepts, hoff, Bool.false_and, Bool.not_false, if_true] at h
    split at h <;> rw [← (Prod.mk.inj h).1]
    · exact hoff
    · exact hoff
  | _ =>
    rw [show s' = s from h]
    exact ⟨hoff, rfl⟩

/-- The server never turns its cache on. -/
structure CacheOff (P : ServerPool) : Prop where
  off : P.shared.cache.enabled = false
  noHits : ∀ x ∈ P.log, isHit x.obs = false

theorem CacheOff.step {g : Globals} {P P' : ServerPool} (h : CacheOff P) (hs : Pool.Step (server g) P P') : CacheOff P' := by
  cases hs with
  | start hstart =>
    obtain ⟨-, rfl⟩ := hstart
    exact ⟨h.off, h.noHits⟩
  | say hw =>
    refine ⟨h.off, fun x hx => ?_⟩
    rcases List.mem_append.1 hx with hx | hx
    · exact h.noHits x hx
    · rw [List.mem_singleton.1 hx]
      rfl
  | ask hw hserve =>
    obtain ⟨hoff, hmiss⟩ := serveCache_off (serveGlobals_cache hserve.2.2) h.off
    refine ⟨hoff, fun x hx => ?_⟩
    rcases List.mem_append.1 hx with hx | hx
    · exact h.noHits x hx
    · rw [List.mem_singleton.1 hx]
      exact hmiss
  | @outside s s' ws log hmove =>
    obtain ⟨m, rfl⟩ := hmove
    refine ⟨?_, h.noHits⟩
    rcases mainStep_cache s m with hsame | hdestroyed
    · exact (congrArg CacheState.enabled hsame).trans h.off
    · exact congrArg CacheState.enabled hdestroyed

/-! ## What is served from it -/

/-- The lookup behind a cached response, and what it found. -/
theorem cached_lookup {g : Globals} {P : CachePool} (h : Pool.Reach (cacheService g) {} P) {i : Nat} {call : WriteCall}
    (hout : .relayed .cached call ∈ outputs (past P.log i)) :
    ∃ env rest url key data now pre post, P.workers[i]? = some ⟨some env, rest⟩ ∧
      readRequest env.client = some (.plain url) ∧
      outputs (past P.log i) <+: (sendAll data env.writes).calls.map (.relayed .cached) ∧
      P.log = pre ++ ⟨i, .asked (.cacheLookup key) (some data), some now⟩ :: post ∧ FreshFetch P pre url key data now := by
  have hc := cached_of_mem_outputs hout
  obtain ⟨env, rest, hw, ⟨t, huse⟩, -⟩ := worker_cacheUse h hc rfl
  obtain ⟨a, c, key, data, hpast⟩ := huse.hit_of_cached hc
  rw [hpast, List.append_assoc, List.cons_append] at huse
  obtain ⟨⟨url, hreq, hkey⟩, hall⟩ := huse.of_hit
  have hurl := readRequest_plain hreq
  obtain ⟨pre, n, post, hlog, -⟩ := past_split hpast
  obtain ⟨now, ttl, t₀, j, front, hn, hlast, hnow⟩ := (cacheService_history h).hits pre _ post key data hlog rfl
  obtain rfl : n = some now := hn
  refine ⟨env, rest, url, key, data, now, pre, post, hw, hreq, ?_, hlog, hlast.freshFetch h hlog hurl hkey hnow⟩
  rw [← hall, hpast]
  simp only [outputs_append, outputs_asked]
  exact ⟨outputs t, by simp⟩

/-- A response a shared cache may keep, and for how long. -/
structure Reusable (data : List Byte) (seconds : Nat) : Prop where
  rules : ∃ raw body ds, CacheRules data raw body ds ∧ seconds = min 3600 (givenLifetime ds)

theorem reusable_of_cacheable {data : List Byte} (h : (cacheEvaluateResponse data).cacheable = true) :
    Reusable data (cacheEvaluateResponse data).ttlSeconds := by
  obtain ⟨raw, body, ds, hrules⟩ := cacheEvaluateResponse_iff.1 h
  have heval := evaluate_block hrules.status.statusIs200 hrules.block
  refine ⟨raw, body, ds, hrules, ?_⟩
  rw [heval] at h ⊢
  exact judgeLines_ttl hrules.fields h

/-- Worker `j` has fetched all of `data` for `url` and stored it, to be kept for
so many seconds; worker `i` found it in time. -/
structure FromCache (P : ServerPool) (i : Nat) (url : ParsedUrl) (data : List Byte) : Prop where
  history : ∃ (front mid post : List (LogEntry Query.Answer ClientEvent ServerNote)) (j seconds : Nat) (key : List Byte)
      (stored found : ServerNote),
    P.log = front ++ ⟨j, .asked (.cacheStore key data seconds) true, some stored⟩ :: mid ++
      ⟨i, .asked (.cacheLookup key) (some data), some found⟩ :: post ∧
    found.now < stored.now + seconds ∧ Reusable data seconds ∧ .said (.fetched url .ok data) ∈ past front j ∧
    ∃ client rest, P.workers[j]? = some ⟨some client, rest⟩ ∧ wholeStream client.fetch.chunks = some data

/-- An entry of a log that is seen as one with a note. -/
theorem view_eq_some {ν μ : Type} {note : ν → μ} {x : LogEntry Query.Answer ClientEvent ν} {i : Nat}
    {o : Obs Query.Answer ClientEvent} {m : μ} (h : x.view note = ⟨i, o, some m⟩) : ∃ n, x = ⟨i, o, some n⟩ ∧ note n = m := by
  obtain ⟨j, o', n⟩ := x
  cases n with
  | none => cases h
  | some n =>
    cases h
    exact ⟨n, rfl, rfl⟩

theorem fromCache_of_view {P : ServerPool} {i : Nat} {url : ParsedUrl} {key data : List Byte} {now : Int} {pre post : WorkerLog}
    (hlog : (P.view ServerState.cache ServerNote.now).log =
      pre ++ ⟨i, .asked (.cacheLookup key) (some data), some now⟩ :: post)
    (h : FreshFetch (P.view ServerState.cache ServerNote.now) pre url key data now) : FromCache P i url data := by
  obtain ⟨ttl, t, j, front, ⟨mid, rfl, -⟩, hnow, hcacheable, httl, hfetched, client, rest, hw, hstream⟩ := h.fresh
  obtain ⟨l₁, l₂, heq, h₁, h₂⟩ := List.map_eq_append_iff.1 hlog
  obtain ⟨x, post', rfl, hx, -⟩ := List.map_eq_cons_iff.1 h₂
  obtain ⟨front', l₃, rfl, rfl, h₃⟩ := List.map_eq_append_iff.1 h₁
  obtain ⟨y, mid', rfl, hy, -⟩ := List.map_eq_cons_iff.1 h₃
  obtain ⟨found, rfl, rfl⟩ := view_eq_some hx
  obtain ⟨stored, rfl, rfl⟩ := view_eq_some hy
  rw [past_view] at hfetched
  refine ⟨front', mid', post', j, ttl, key, stored, found, by rw [heq], hnow, ?_, hfetched, client, rest, hw, hstream⟩
  rw [← httl]
  exact reusable_of_cacheable hcacheable

/-- Two clients that ask for the same, the second 50 seconds later. -/
def secondPool : ServerPool :=
  let client := originEnv (bytes "http://good.example/x\n") [] [.data shortPage, .eof]
  let moves : List ServerMove :=
    List.replicate 3 (.outside .go) ++ [.start (some client)] ++ List.replicate 25 (.turn 0 10) ++
      List.replicate 3 (.outside .go) ++ [.start (some client)] ++ List.replicate 12 (.turn 1 60)
  moves.foldl (Pool.move (handleClient blocklistStarted.globals) serverChoice) ⟨blocklistStarted.serverState, [], []⟩

end SecureProxy
