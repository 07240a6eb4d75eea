/-
Any number of workers over one response cache.

Each cache operation is one step, made under the module's mutex with whatever
the clock then reads; between two of them any other worker, or the main
thread, may run. The log says what every worker did, in order, and notes the
clock of each answer. The answers of the other modules are any.
-/
import SecureProxy.CacheContents
import SecureProxy.CacheUse
import SecureProxy.Lib.Pool

namespace SecureProxy

open Bytes Progs

/-- What the cache answers at the clock `now`, and how it is left. -/
def serveCache (s : CacheState) : (q : Query) → q.Answer → Int → CacheState → Prop
  | .cacheIsEnabled, a, _, s' => a = s.enabled ∧ s' = s
  | .cacheLookup key, a, now, s' => ∃ alloc, cacheLookup s key now alloc = (s', a)
  | .cacheStore key data ttl, a, now, s' => ∃ alloc, cacheStore s key data ttl now alloc = (s', a)
  | _, _, _, s' => s' = s

/-- The main thread opens and destroys the cache. -/
def MainMoves (s s' : CacheState) : Prop :=
  s' = cacheDestroy s ∨ ∃ n t m alloc, s' = (cacheInit s n t m alloc).1

/-- Workers with the settings `g`, each started from what its sockets do. -/
def cacheService (g : Globals) : Service Query.Answer ClientEvent Unit CacheState (Option ClientEnv) Int where
  prog := handleClient g
  start s _ s' := s' = s
  serve := serveCache
  outside := MainMoves

abbrev WorkerLog := List (LogEntry Query.Answer ClientEvent Int)

abbrev CachePool := Pool Query.Answer ClientEvent Unit CacheState (Option ClientEnv) Int

/-- The cache can always answer. -/
theorem cacheService_ok (g : Globals) (q : Query) : ∃ a, (cacheService g).Ok q a := by
  cases q with
  | cacheIsEnabled => exact ⟨false, {}, 0, {}, rfl, rfl⟩
  | cacheLookup key => exact ⟨none, {}, 0, {}, true, rfl⟩
  | cacheStore key data ttl => exact ⟨_, {}, 0, _, false, rfl⟩
  | nextRequestId => exact ⟨0, {}, 0, {}, rfl⟩
  | policyCheckHost host => exact ⟨.allow, {}, 0, {}, rfl⟩
  | reputationIsEnabled => exact ⟨false, {}, 0, {}, rfl⟩
  | reputationCheck host => exact ⟨⟨.safe, .ok⟩, {}, 0, {}, rfl⟩
  | leave => exact ⟨(), {}, 0, {}, rfl⟩

/-! ## The last store of a key -/

/-- An entry that has put something under `key`. -/
def Stores (key : List Byte) (x : LogEntry Query.Answer ClientEvent Int) : Prop :=
  ∃ data ttl, x.obs = .asked (.cacheStore key data ttl) true

/-- Worker `j` made the last store of `key`, after `pre`, with the clock at `t`. -/
structure LastStore (log : WorkerLog) (key data : List Byte) (ttl : Nat) (t : Int) (j : Nat) (pre : WorkerLog) :
    Prop where
  last : ∃ post, log = pre ++ ⟨j, .asked (.cacheStore key data ttl) true, some t⟩ :: post ∧ ∀ x ∈ post, ¬ Stores key x

theorem LastStore.snoc {log pre : WorkerLog} {key data : List Byte} {ttl j : Nat} {t : Int}
    (h : LastStore log key data ttl t j pre) {x : LogEntry Query.Answer ClientEvent Int} (hx : ¬ Stores key x) :
    LastStore (log ++ [x]) key data ttl t j pre := by
  obtain ⟨post, rfl, hpost⟩ := h
  refine ⟨post ++ [x], by simp, fun y hy => ?_⟩
  rcases List.mem_append.1 hy with hy | hy
  · exact hpost y hy
  · rw [List.mem_singleton.1 hy]
    exact hx

/-- The slots hold what was last stored under their keys, and a lookup found
what was last stored before it. -/
structure CacheHistory (s : CacheState) (log : WorkerLog) : Prop where
  keys : DistinctKeys (contents s.entries)
  stored : ∀ c ∈ contents s.entries, ∃ data ttl t j pre, LastStore log c.key data ttl t j pre ∧
    c = storedContent c.key data ttl t
  hits : ∀ pre x post key data, log = pre ++ x :: post → x.obs = .asked (.cacheLookup key) (some data) →
    ∃ now ttl t j front, x.note = some now ∧ LastStore pre key data ttl t j front ∧
      now < t + min ttl cacheMaxTtlSeconds

namespace CacheHistory

variable {s s' : CacheState} {log : WorkerLog} {x : LogEntry Query.Answer ClientEvent Int}

theorem nil : CacheHistory {} [] where
  keys := List.Pairwise.nil
  stored := by simp [contents]
  hits := by simp

/-- Some of the contents may go at any time. -/
theorem subperm (h : CacheHistory s log) (hs : (contents s'.entries).Subperm (contents s.entries)) :
    CacheHistory s' log :=
  ⟨h.keys.subperm hs, fun c hc => h.stored c (hs.subset hc), h.hits⟩

/-- The lookups that have been are not changed by what comes after. -/
theorem hits_snoc (h : CacheHistory s log)
    (hx : ∀ key data, x.obs = .asked (.cacheLookup key) (some data) →
      ∃ now ttl t j front, x.note = some now ∧ LastStore log key data ttl t j front ∧
        now < t + min ttl cacheMaxTtlSeconds) :
    ∀ pre y post key data, log ++ [x] = pre ++ y :: post → y.obs = .asked (.cacheLookup key) (some data) →
      ∃ now ttl t j front, y.note = some now ∧ LastStore pre key data ttl t j front ∧
        now < t + min ttl cacheMaxTtlSeconds := by
  intro pre y post key data heq hy
  rcases List.eq_nil_or_concat post with rfl | ⟨post, z, rfl⟩
  · obtain ⟨rfl, hxy⟩ := List.append_inj' heq rfl
    obtain rfl : x = y := by simpa using hxy
    exact hx key data hy
  · have heq : log ++ [x] = (pre ++ y :: post) ++ [z] := by simpa using heq
    exact h.hits pre y post key data (List.append_inj' heq rfl).1 hy

/-- An entry that neither stores nor finds. -/
theorem snoc (h : CacheHistory s log) (hs : (contents s'.entries).Subperm (contents s.entries))
    (hstore : ∀ key, ¬ Stores key x) (hhit : ∀ key data, x.obs ≠ .asked (.cacheLookup key) (some data)) :
    CacheHistory s' (log ++ [x]) := by
  refine ⟨h.keys.subperm hs, fun c hc => ?_, h.hits_snoc fun key data hx => absurd hx (hhit key data)⟩
  obtain ⟨data, ttl, t, j, pre, hlast, heq⟩ := h.stored c (hs.subset hc)
  exact ⟨data, ttl, t, j, pre, hlast.snoc (hstore _), heq⟩

theorem lookup (h : CacheHistory s log) {i : Nat} {key : List Byte} {a : Option (List Byte)} {now : Int} {alloc : Bool}
    (hl : cacheLookup s key now alloc = (s', a)) :
    CacheHistory s' (log ++ [⟨i, .asked (.cacheLookup key) a, some now⟩]) := by
  obtain ⟨hsub, hfound⟩ := cacheLookup_contents s key now alloc
  rw [hl] at hsub hfound
  refine ⟨h.keys.subperm hsub, fun c hc => ?_, h.hits_snoc fun key' data hx => ?_⟩
  · obtain ⟨data, ttl, t, j, pre, hlast, heq⟩ := h.stored c (hsub.subset hc)
    exact ⟨data, ttl, t, j, pre, hlast.snoc (by simp [Stores]), heq⟩
  · cases hx
    obtain ⟨c, hc, rfl, hnow, rfl⟩ := hfound data rfl
    obtain ⟨data, ttl, t, j, pre, hlast, heq⟩ := h.stored c hc
    rw [heq] at hnow ⊢
    refine ⟨now, ttl, t, j, pre, rfl, ?_, hnow⟩
    simpa [storedContent] using hlast

theorem store (h : CacheHistory s log) {i : Nat} {key data : List Byte} {ttl : Nat} {stored : Bool} {now : Int}
    {alloc : Bool} (hst : cacheStore s key data ttl now alloc = (s', stored)) :
    CacheHistory s' (log ++ [⟨i, .asked (.cacheStore key data ttl) stored, some now⟩]) := by
  rcases cacheStore_contents h.keys hst with ⟨rfl, cs, hsub, hkey, hperm⟩ | ⟨rfl, hsub⟩
  · refine ⟨?_, fun c hc => ?_, h.hits_snoc fun key' data' hx => by cases hx⟩
    · refine (hperm.pairwise_iff fun hne => hne.symm).2 (List.pairwise_cons.2 ⟨fun c hc => (hkey c hc).symm, ?_⟩)
      exact h.keys.subperm hsub
    · rcases List.mem_cons.1 (hperm.mem_iff.1 hc) with rfl | hc
      · exact ⟨data, ttl, now, i, log, ⟨[], rfl, by simp⟩, rfl⟩
      · obtain ⟨data', ttl', t, j, pre, hlast, heq⟩ := h.stored c (hsub.subset hc)
        refine ⟨data', ttl', t, j, pre, hlast.snoc ?_, heq⟩
        intro ⟨d, n, hx⟩
        cases hx
        exact hkey c hc rfl
  · refine h.snoc hsub ?_ (by simp)
    intro key' ⟨d, n, hx⟩
    cases hx

end CacheHistory

/-- A step keeps it. -/
theorem cacheService_step {g : Globals} {P P' : CachePool} (h : CacheHistory P.shared P.log)
    (hs : Pool.Step (cacheService g) P P') : CacheHistory P'.shared P'.log := by
  cases hs with
  | start hst =>
    rw [show _ = _ from hst]
    exact h
  | say hw => exact h.snoc (List.Subperm.refl _) (by simp [Stores]) (by simp)
  | outside ho =>
    rcases ho with rfl | ⟨n, t, m, alloc, rfl⟩
    · exact h.subperm (by simp [cacheDestroy, contents])
    · exact h.subperm (cacheInit_contents _ n t m alloc)
  | @ask s s' ws log i x q k a now hw hserve =>
    have hsame : s' = s → (∀ key, ¬ Stores key ⟨i, .asked q a, some now⟩) →
        (∀ key data, (.asked q a : Obs Query.Answer ClientEvent) ≠ .asked (.cacheLookup key) (some data)) →
        CacheHistory s' (log ++ [⟨i, .asked q a, some now⟩]) := by
      intro heq hstore hhit
      subst heq
      exact h.snoc (List.Subperm.refl _) hstore hhit
    cases q with
    | cacheLookup key =>
      obtain ⟨alloc, hl⟩ := hserve
      exact h.lookup hl
    | cacheStore key data ttl =>
      obtain ⟨alloc, hst⟩ := hserve
      exact h.store hst
    | cacheIsEnabled => exact hsame hserve.2 (by simp [Stores]) (by simp)
    | nextRequestId => exact hsame hserve (by simp [Stores]) (by simp)
    | policyCheckHost host => exact hsame hserve (by simp [Stores]) (by simp)
    | reputationIsEnabled => exact hsame hserve (by simp [Stores]) (by simp)
    | reputationCheck host => exact hsame hserve (by simp [Stores]) (by simp)
    | leave => exact hsame hserve (by simp [Stores]) (by simp)

/-- It holds in every pool that can be reached. -/
theorem cacheService_history {g : Globals} {P : CachePool} (h : Pool.Reach (cacheService g) {} P) :
    CacheHistory P.shared P.log :=
  h.invariant (fun P => CacheHistory P.shared P.log) .nil fun _ _ ih hs _ => cacheService_step ih hs

/-! ## What is served from the cache -/

theorem runs_handleClient_none {ok : (q : Query) → q.Answer → Prop} {g : Globals} {t : Trace} {u : Unit}
    (h : Runs ok (handleClient g none) t u) : t = [.asked .leave ()] :=
  (runs_query_iff.1 h).2

/-- A worker's past is the beginning of a run that uses the cache as it should. -/
theorem worker_cacheUse {g : Globals} {P : CachePool} (h : Pool.Reach (cacheService g) {} P) {i : Nat}
    {o : Obs Query.Answer ClientEvent} (ho : o ∈ past P.log i) (hu : usesCache o = true) :
    ∃ env rest, P.workers[i]? = some ⟨some env, rest⟩ ∧ (∃ t, CacheUse env (past P.log i ++ t)) ∧
      (rest = .pure () → CacheUse env (past P.log i)) := by
  obtain ⟨x, hx, rfl, -⟩ := mem_past ho
  obtain ⟨w, hw⟩ := h.worker hx
  obtain ⟨t, r, hrun⟩ := h.runs (cacheService_ok g) hw
  obtain ⟨seed, rest⟩ := w
  cases seed with
  | none =>
    have hmem : o ∈ past P.log x.worker ++ t := List.mem_append_left _ ho
    rw [runs_handleClient_none (g := g) hrun, List.mem_singleton] at hmem
    rw [hmem] at hu
    cases hu
  | some env =>
    refine ⟨env, rest, hw, ⟨t, runs_handleClient_cacheUse hrun⟩, fun hrest => ?_⟩
    subst hrest
    have := (h.sound.leads _ _ hw).runs Runs.pure
    rw [List.append_nil] at this
    exact runs_handleClient_cacheUse this

/-- Worker `i` has been answered from the cache with `data`, for the request
`url`, by a lookup after `pre` with the clock at `now`. -/
structure ServedFromCache (P : CachePool) (i : Nat) (url : ParsedUrl) (key data : List Byte) (now : Int)
    (pre : WorkerLog) : Prop where
  lookup : ∃ post, P.log = pre ++ ⟨i, .asked (.cacheLookup key) (some data), some now⟩ :: post
  noQuery : ch '?' ∉ url.path
  /-- All the client is sent is `data`. -/
  sent : ∃ env rest, P.workers[i]? = some ⟨some env, rest⟩ ∧ readRequest env.client = some (.plain url) ∧
    outputs (past P.log i) <+: (sendAll data env.writes).calls.map (.relayed .cached) ∧
    (rest = .pure () → outputs (past P.log i) = (sendAll data env.writes).calls.map (.relayed .cached)) ∧
    acceptedBytes (sendAll data env.writes).calls <+: data ∧
    ((sendAll data env.writes).rc = some data.length → acceptedBytes (sendAll data env.writes).calls = data)

/-- `data` is the whole of what the origin of worker `j` once sent for `url`,
in a fetch that ended well; its store, at the clock `t` and for `ttl` seconds,
is the last of the key in `pre`. -/
structure FreshFetch (P : CachePool) (pre : WorkerLog) (url : ParsedUrl) (key data : List Byte) (now : Int) : Prop where
  fresh : ∃ ttl t j front, LastStore pre key data ttl t j front ∧ now < t + ttl ∧
    (cacheEvaluateResponse data).cacheable = true ∧ (cacheEvaluateResponse data).ttlSeconds = ttl ∧
    .said (.fetched url .ok data) ∈ past front j ∧
    ∃ env rest, P.workers[j]? = some ⟨some env, rest⟩ ∧ wholeStream env.fetch.chunks = some data

/-- The last store before a lookup has its fetch before it. -/
theorem LastStore.freshFetch {g : Globals} {P : CachePool} (h : Pool.Reach (cacheService g) {} P) {pre rest : WorkerLog}
    (hlog : P.log = pre ++ rest) {url : ParsedUrl} (hurl : UrlOk url) {key data : List Byte}
    (hkey : cacheKeyOf url = some key) {ttl j : Nat} {t now : Int} {front : WorkerLog}
    (hlast : LastStore pre key data ttl t j front) (hnow : now < t + min ttl cacheMaxTtlSeconds) :
    FreshFetch P pre url key data now := by
  obtain ⟨post, rfl, hpost⟩ := hlast
  have hpast : past P.log j = past front j ++ .asked (.cacheStore key data ttl) true :: past (post ++ rest) j := by
    rw [hlog, List.append_assoc, past_append, List.cons_append]
    have := past_cons_self (⟨j, .asked (.cacheStore key data ttl) true, some t⟩ : LogEntry Query.Answer ClientEvent Int)
      (post ++ rest)
    exact congrArg _ this
  obtain ⟨env, rest', hw, ⟨t', huse⟩, -⟩ := worker_cacheUse h (o := .asked (.cacheStore key data ttl) true)
    (by rw [hpast]; simp) rfl
  rw [hpast, List.append_assoc, List.cons_append] at huse
  obtain ⟨url', hreq, hkey', hcacheable, httl, hstream, hfetched⟩ := huse.of_store
  obtain rfl := cacheKeyOf_inj hurl (readRequest_plain hreq) hkey hkey'
  have hle : ttl ≤ cacheMaxTtlSeconds := httl ▸ (cacheEvaluateResponse_ttl data hcacheable).2
  rw [Nat.min_eq_left hle] at hnow
  exact ⟨ttl, t, j, front, ⟨post, rfl, hpost⟩, hnow, hcacheable, httl, hfetched, env, rest', hw, hstream⟩

theorem cached_of_mem_outputs {t : Trace} {call : WriteCall} (h : .relayed .cached call ∈ outputs t) :
    .said (.relay .cached call) ∈ t := by
  obtain ⟨o, ho, hout⟩ := List.mem_filterMap.1 h
  cases o with
  | asked q a => cases hout
  | said e =>
    cases e with
    | relay src c =>
      cases hout
      exact ho
    | tunnel e =>
      cases e with
      | written dst c => cases dst <;> cases hout
      | _ => cases hout
    | _ => cases hout

/-- **A cached response is a fresh fetch of the same URL.** However the
workers are interleaved and whatever the origins send and the clock reads: a
client that is sent cached bytes is sent what one fetch of its own URL
received as a whole, the last stored under the URL's key, before the lifetime
it was given has passed. -/
theorem cached_response_fresh {g : Globals} {P : CachePool} (h : Pool.Reach (cacheService g) {} P) {i : Nat}
    {call : WriteCall} (hout : .relayed .cached call ∈ outputs (past P.log i)) :
    ∃ url key data now pre, ServedFromCache P i url key data now pre ∧ FreshFetch P pre url key data now := by
  have hc := cached_of_mem_outputs hout
  obtain ⟨env, rest, hw, ⟨t, huse⟩, hdone⟩ := worker_cacheUse h hc rfl
  obtain ⟨a, c, key, data, hpast⟩ := huse.hit_of_cached hc
  rw [hpast, List.append_assoc, List.cons_append] at huse
  obtain ⟨⟨url, hreq, hkey⟩, hall⟩ := huse.of_hit
  have hurl := readRequest_plain hreq
  obtain ⟨pre, n, post, hlog, rfl⟩ := past_split hpast
  obtain ⟨now, ttl, t₀, j, front, hn, hlast, hnow⟩ := (cacheService_history h).hits pre _ post key data hlog rfl
  obtain rfl : n = some now := hn
  refine ⟨url, key, data, now, pre, ⟨⟨post, hlog⟩, (cacheKeyOf_eq hurl hkey).1, env, rest, hw, hreq, ?_, ?_,
    sendAll_accepted data env.writes⟩, ?_⟩
  · rw [← hall, hpast]
    simp only [outputs_append, outputs_asked]
    exact ⟨outputs t, by simp⟩
  · intro hrest
    have := hdone hrest
    rw [hpast] at this ⊢
    exact this.of_hit.2
  · exact hlast.freshFetch h hlog hurl hkey hnow

/-- The cache with memory to spare, and the other modules off. -/
def cacheChoice : Choice Query.Answer CacheState (Option ClientEnv) Int Int (Nat × Nat × Nat) where
  start s _ := some s
  serve s q now :=
    match q with
    | .cacheIsEnabled => some (s.enabled, now, s)
    | .cacheLookup key => some ((cacheLookup s key now true).2, now, (cacheLookup s key now true).1)
    | .cacheStore key data ttl => some ((cacheStore s key data ttl now true).2, now, (cacheStore s key data ttl now true).1)
    | .nextRequestId => some (1, now, s)
    | .policyCheckHost _ => some (.allow, now, s)
    | .reputationIsEnabled => some (false, now, s)
    | .reputationCheck _ => some (⟨.safe, .ok⟩, now, s)
    | .leave => some ((), now, s)
  outside s b := (cacheInit s b.1 b.2.1 b.2.2 true).1

theorem cacheChoice_within (g : Globals) : cacheChoice.Within (cacheService g) where
  start s _ s' h := (Option.some.inj h).symm
  serve s q now a n s' h := by
    cases q with
    | cacheIsEnabled =>
      cases h
      exact ⟨rfl, rfl⟩
    | cacheLookup key =>
      cases h
      exact ⟨true, rfl⟩
    | cacheStore key data ttl =>
      cases h
      exact ⟨true, rfl⟩
    | _ =>
      cases h
      rfl
  outside s b := .inr ⟨b.1, b.2.1, b.2.2, true, rfl⟩

/-- Two clients of one URL, the second after the first. -/
def twoClients : CachePool :=
  let env := originEnv (bytes "http://a.example/x\n") []
    [.data ⟨bytes "HTTP/1.1 200 OK\r\n\r\nhi", by decide, by decide⟩, .eof]
  let moves : List (Move (Option ClientEnv) Int (Nat × Nat × Nat)) :=
    [.outside (4, 100, 50), .start (some env), .start (some env)] ++ List.replicate 25 (.turn 0 10) ++
      List.replicate 12 (.turn 1 60)
  moves.foldl (Pool.move (handleClient {}) cacheChoice) ⟨{}, [], []⟩

/-- The second is answered from the cache. -/
theorem cached_response_fresh_second : ∃ url key data now pre,
    ServedFromCache twoClients 1 url key data now pre ∧ FreshFetch twoClients pre url key data now := by
  have hreach : Pool.Reach (cacheService {}) {} twoClients := Pool.Reach.schedule (cacheChoice_within {}) .init _
  have hout : .relayed .cached ⟨bytes "HTTP/1.1 200 OK\r\n\r\nhi", 21⟩ ∈ outputs (past twoClients.log 1) := by
    decide +kernel
  exact cached_response_fresh hreach hout

end SecureProxy
