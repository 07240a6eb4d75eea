/-
What one worker does with the response cache: it takes one answer from it,
or offers it one response, or neither; and what it offers is all that a
finished fetch of its own URL received.
-/
import SecureProxy.CacheKey
import SecureProxy.Responses

namespace SecureProxy

open Bytes Progs

/-! ## The key -/

/-- The key spells the URL out. -/
theorem cacheKeyOf_eq {url : ParsedUrl} {key : List Byte} (hok : UrlOk url) (h : cacheKeyOf url = some key) :
    ch '?' ∉ url.path ∧ key = urlKey url := by
  unfold cacheKeyOf at h
  split at h
  · cases h
  · rename_i hq
    rw [cacheMakeKey_eq hok] at h
    exact ⟨by simpa using hq, (Option.some.inj h).symm⟩

/-- Two URLs the parser returns never share a key. -/
theorem cacheKeyOf_inj {url url' : ParsedUrl} {key : List Byte} (hok : UrlOk url) (hok' : UrlOk url')
    (h : cacheKeyOf url = some key) (h' : cacheKeyOf url' = some key) : url = url' := by
  obtain ⟨-, heq⟩ := cacheKeyOf_eq hok h
  obtain ⟨-, heq'⟩ := cacheKeyOf_eq hok' h'
  exact urlKey_inj hok hok' (heq.symm.trans heq')

/-- A plain request has been through the parser. -/
theorem readRequest_plain {rs : List (RecvOutcome 1)} {url : ParsedUrl} (h : readRequest rs = some (.plain url)) :
    UrlOk url := by
  unfold readRequest at h
  dsimp only at h
  split at h
  · split at h
    · split at h
      · split at h <;> cases h
      · cases h
    · split at h
      · rename_i hp
        cases h
        exact parseHttpUrl_urlOk hp
      · cases h
  · cases h

/-! ## Traces that leave the cache alone -/

/-- A store, a lookup that finds something, or a byte of what it found. -/
def usesCache : Obs Query.Answer ClientEvent → Bool
  | .asked (.cacheStore ..) _ => true
  | .asked (.cacheLookup _) data => data.isSome
  | .said (.relay .cached _) => true
  | _ => false

def NoCache (t : Trace) : Prop := ∀ o ∈ t, usesCache o = false

theorem noCache_nil : NoCache [] := by simp [NoCache]

theorem noCache_append {t t' : Trace} : NoCache (t ++ t') ↔ NoCache t ∧ NoCache t' := by
  simp [NoCache, or_imp, forall_and]

theorem NoCache.said {es : List ClientEvent} (h : ∀ e ∈ es, ∀ call, e ≠ .relay .cached call) :
    NoCache (es.map .said) := by
  intro o ho
  obtain ⟨e, he, rfl⟩ := List.mem_map.1 ho
  cases e with
  | relay src call =>
    cases src with
    | cached => exact absurd rfl (h _ he call)
    | origin => rfl
  | _ => rfl

theorem ChecksOnly.noCache {t : Trace} (h : ChecksOnly t) : NoCache t := by
  intro o ho
  obtain ⟨q, a, rfl, hq⟩ := h o ho
  cases q <;> first | rfl | cases hq

theorem fetchEvents_noCache (url : ParsedUrl) (r : FetchResult) : NoCache ((fetchEvents url r).map .said) := by
  refine NoCache.said fun e he call heq => ?_
  subst heq
  simp [fetchEvents] at he

section

variable {ok : (q : Query) → q.Answer → Prop} {g : Globals} {env : ClientEnv} {requestId : UInt64} {t : Trace}
  {o o' : Outcome} {url : ParsedUrl}

theorem Replies.noCache (h : Replies env t) : NoCache t := by
  obtain ⟨r, calls, -, rfl⟩ := h
  simp [NoCache, usesCache]

theorem runs_openTunnel_noCache {fd : Option Fd} (h : Runs ok (openTunnel g env fd o) t o') : NoCache t := by
  simp only [openTunnel, runs_bind_iff, runs_tell_iff] at h
  obtain ⟨t₁, -, t₂, rfl, h, rfl⟩ := h
  refine noCache_append.2 ⟨by simp [NoCache, usesCache], ?_⟩
  split at h
  · simp only [runs_bind_iff, runs_tells_iff, runs_pure_iff] at h
    obtain ⟨t₃, -, t₄, rfl, ⟨rfl, -⟩, rfl⟩ := h
    rw [List.append_nil]
    exact NoCache.said (by simp)
  · simp only [runs_bind_iff, runs_tells_iff, runs_pure_iff] at h
    obtain ⟨t₃, -, t₄, rfl, ⟨rfl, -⟩, rfl⟩ := h
    rw [List.append_nil]
    refine NoCache.said fun e he call heq => ?_
    subst heq
    simp at he

theorem runs_connectOrigin_noCache {target : ParsedConnect} (h : Runs ok (connectOrigin g env requestId target o) t o') :
    NoCache t := by
  simp only [connectOrigin, runs_bind_iff, runs_tells_iff] at h
  obtain ⟨t₁, -, t₂, rfl, h, rfl⟩ := h
  refine noCache_append.2 ⟨NoCache.said (by simp), ?_⟩
  split at h
  · exact (runs_block_replies h).noCache
  · split at h
    · exact (runs_badGateway h).noCache
    · exact runs_openTunnel_noCache h

/-! ## The one use -/

/-- What a whole run does with the cache. -/
inductive CacheUse (env : ClientEnv) (t : Trace) : Prop
  | unused : NoCache t → CacheUse env t
  | hit (url : ParsedUrl) (key data : List Byte) (front back : Trace) :
      readRequest env.client = some (.plain url) → cacheKeyOf url = some key →
      NoCache front → outputs front = [] → NoCache back → outputs back = [] →
      t = front ++ .asked (.cacheLookup key) (some data) ::
        (((sendAll data env.writes).calls.map (.relay .cached)).map .said ++ back) → CacheUse env t
  | store (url : ParsedUrl) (key data : List Byte) (ttl : Nat) (stored : Bool) (front back : Trace) :
      readRequest env.client = some (.plain url) → cacheKeyOf url = some key →
      (cacheEvaluateResponse data).cacheable = true → (cacheEvaluateResponse data).ttlSeconds = ttl →
      wholeStream env.fetch.chunks = some data → .said (.fetched url .ok data) ∈ front → NoCache front → NoCache back →
      t = front ++ .asked (.cacheStore key data ttl) stored :: back → CacheUse env t

/-- Around it nothing changes. -/
theorem CacheUse.around (h : CacheUse env t) {front back : Trace} (hf : NoCache front) (hfo : outputs front = [])
    (hb : NoCache back) (hbo : outputs back = []) : CacheUse env (front ++ t ++ back) := by
  cases h with
  | unused hn => exact .unused (noCache_append.2 ⟨noCache_append.2 ⟨hf, hn⟩, hb⟩)
  | hit url key data front' back' hreq hkey hf' hfo' hb' hbo' heq =>
    refine .hit url key data (front ++ front') (back' ++ back) hreq hkey (noCache_append.2 ⟨hf, hf'⟩) ?_
      (noCache_append.2 ⟨hb', hb⟩) ?_ ?_
    · rw [outputs_append, hfo, hfo']
      rfl
    · rw [outputs_append, hbo, hbo']
      rfl
    · rw [heq]
      simp only [List.append_assoc, List.cons_append]
  | store url key data ttl stored front' back' hreq hkey hc httl hs hm hf' hb' heq =>
    refine .store url key data ttl stored (front ++ front') (back' ++ back) hreq hkey hc httl hs
      (List.mem_append_right _ hm) (noCache_append.2 ⟨hf, hf'⟩) (noCache_append.2 ⟨hb', hb⟩) ?_
    rw [heq]
    simp only [List.append_assoc, List.cons_append]

/-- What is offered to the cache is what the fetch received. -/
theorem cacheCandidate_eq {limit : Nat} {data : List Byte} {ttl : Nat}
    (h : cacheCandidate (fetchAndRelay g.allowPrivate env.fetch url limit) = some (data, ttl)) :
    (fetchAndRelay g.allowPrivate env.fetch url limit).status = .ok ∧
      data = (fetchAndRelay g.allowPrivate env.fetch url limit).received ∧
      (cacheEvaluateResponse data).cacheable = true ∧ (cacheEvaluateResponse data).ttlSeconds = ttl := by
  unfold cacheCandidate at h
  split at h
  · rename_i hok
    obtain ⟨copy, hcap, h⟩ := Option.bind_eq_some_iff.1 h
    dsimp only at h
    split at h
    · rename_i hc
      obtain ⟨rfl, rfl⟩ := Prod.mk.inj (Option.some.inj h)
      exact ⟨hok, fetchAndRelay_copy hok hcap, hc, rfl⟩
    · cases h
  · cases h

theorem FetchRun.cacheUse {key : Option (List Byte)} (h : FetchRun g env url key t)
    (hreq : readRequest env.client = some (.plain url)) (hkey : ∀ k, key = some k → cacheKeyOf url = some k) :
    CacheUse env t := by
  obtain ⟨t₁, t₂, rfl, hstore, hreply⟩ := h
  have hevents := fetchEvents_noCache url (fetchAndRelay g.allowPrivate env.fetch url (captureLimit key))
  have hre : NoCache t₂ := by
    rcases hreply with ⟨-, hr⟩ | ⟨-, rfl⟩
    · exact hr.noCache
    · exact noCache_nil
  cases hstore with
  | nothing =>
    rw [List.append_nil]
    exact .unused (noCache_append.2 ⟨hevents, hre⟩)
  | store k data ttl stored hk hc =>
    obtain ⟨hok, hdata, hcacheable, httl⟩ := cacheCandidate_eq hc
    refine .store url k data ttl stored _ t₂ hreq (hkey k hk) hcacheable httl ?_ ?_ hevents hre
      (by rw [List.append_assoc]; rfl)
    · rw [hdata]
      exact fetchAndRelay_stream hok
    · rw [hdata, ← hok]
      simp [fetchEvents]

theorem PlainRun.cacheUse (h : PlainRun g env url t) (hreq : readRequest env.client = some (.plain url)) :
    CacheUse env t := by
  cases h with
  | uncached on t hf =>
    have hfront : NoCache [.asked .cacheIsEnabled on] := by simp [NoCache, usesCache]
    simpa using (hf.cacheUse hreq (by simp)).around hfront rfl noCache_nil rfl
  | hit key data hkey =>
    exact .hit url key data [.asked .cacheIsEnabled true] [] hreq hkey (by simp [NoCache, usesCache]) rfl noCache_nil rfl
      (by simp)
  | miss key t hkey hf =>
    have hfront : NoCache [.asked .cacheIsEnabled true, .asked (.cacheLookup key) none] := by simp [NoCache, usesCache]
    have hk : ∀ k, some key = some k → cacheKeyOf url = some k := fun k hk => hk ▸ hkey
    simpa using (hf.cacheUse hreq hk).around hfront rfl noCache_nil rfl

theorem runs_serveClient_cacheUse (h : Runs ok (serveClient g env requestId) t o) : CacheUse env t := by
  have heq := serveClient_eq g env requestId
  cases hreq : readRequest env.client with
  | none =>
    rw [hreq] at heq
    rcases heq.runs h with rfl | ⟨status, bytes, calls, rfl⟩
    · exact .unused noCache_nil
    · exact .unused (by simp [NoCache, usesCache])
  | some req =>
    rw [hreq] at heq
    rw [show serveClient g env requestId = _ from heq] at h
    have hblock : ∀ reason, NoCache [.said (blockEvent env requestId reason)] := fun reason => by
      simp [NoCache, usesCache, blockEvent]
    rcases runs_serveRequest h with ⟨-, rfl⟩ | ⟨-, hg⟩
    · exact .unused (hblock _)
    · cases hg with
      | policy _ t₁ _ _ hask ht =>
        rw [ht]
        exact .unused (noCache_append.2 ⟨hask.noCache, hblock _⟩)
      | reputation t₁ _ _ hask ht =>
        rw [ht]
        exact .unused (noCache_append.2 ⟨hask.noCache, hblock _⟩)
      | cleared t₁ t₂ o₁ _ _ hask hrun ht =>
        rw [ht]
        cases req with
        | plain url =>
          have := ((runs_servePlain hrun).cacheUse hreq).around hask.noCache hask.outputs_eq noCache_nil rfl
          simpa using this
        | connect target =>
          exact .unused (noCache_append.2 ⟨hask.noCache, runs_connectOrigin_noCache hrun⟩)

theorem runs_handleClient_cacheUse {u : Unit} (h : Runs ok (handleClient g (some env)) t u) : CacheUse env t := by
  obtain ⟨requestId, t₁, o, hrun, rfl⟩ := runs_handleClient h
  have hfront : NoCache [.said .freeArgs, .asked .nextRequestId requestId] := by simp [NoCache, usesCache]
  exact (runs_serveClient_cacheUse hrun).around hfront rfl (by simp [NoCache, usesCache]) rfl

/-! ## Where in the trace it is -/

theorem NoCache.not_mem {x : Obs Query.Answer ClientEvent} (h : NoCache t) (hx : usesCache x = true) : x ∉ t := by
  intro hm
  have := h x hm
  rw [hx] at this
  cases this

/-- A store has its fetch before it. -/
theorem CacheUse.of_store {a c : Trace} {key data : List Byte} {ttl : Nat} {stored : Bool}
    (h : CacheUse env (a ++ .asked (.cacheStore key data ttl) stored :: c)) :
    ∃ url, readRequest env.client = some (.plain url) ∧ cacheKeyOf url = some key ∧
      (cacheEvaluateResponse data).cacheable = true ∧ (cacheEvaluateResponse data).ttlSeconds = ttl ∧
      wholeStream env.fetch.chunks = some data ∧ .said (.fetched url .ok data) ∈ a := by
  have hmem : .asked (.cacheStore key data ttl) stored ∈ a ++ .asked (.cacheStore key data ttl) stored :: c := by simp
  cases h with
  | unused hn => exact absurd hmem (hn.not_mem rfl)
  | hit url k d front back _ _ hf _ hb _ heq =>
    rw [heq] at hmem
    simp only [List.mem_append, List.mem_cons, reduceCtorEq, Obs.asked.injEq, false_and, List.mem_map, and_false,
      exists_false, false_or] at hmem
    rcases hmem with hmem | hmem
    · exact absurd hmem (hf.not_mem rfl)
    · exact absurd hmem (hb.not_mem rfl)
  | store url k d n b front back hreq hkey hc httl hs hm hf hb heq =>
    obtain ⟨rfl, hx, -⟩ := (List.append_cons_inj_of_notMem (hf.not_mem rfl) (hb.not_mem rfl)).1 heq.symm
    cases hx
    exact ⟨url, hreq, hkey, hc, httl, hs, hm⟩

/-- A lookup that finds something is the whole of the answer. -/
theorem CacheUse.of_hit {a c : Trace} {key data : List Byte}
    (h : CacheUse env (a ++ .asked (.cacheLookup key) (some data) :: c)) :
    (∃ url, readRequest env.client = some (.plain url) ∧ cacheKeyOf url = some key) ∧
      outputs (a ++ .asked (.cacheLookup key) (some data) :: c) =
        (sendAll data env.writes).calls.map (.relayed .cached) := by
  have hmem : .asked (.cacheLookup key) (some data) ∈ a ++ .asked (.cacheLookup key) (some data) :: c := by simp
  cases h with
  | unused hn => exact absurd hmem (hn.not_mem rfl)
  | store url k d n b front back _ _ _ _ _ _ hf hb heq =>
    rw [heq] at hmem
    simp only [List.mem_append, List.mem_cons, reduceCtorEq, Obs.asked.injEq, false_and, false_or] at hmem
    rcases hmem with hmem | hmem
    · exact absurd hmem (hf.not_mem rfl)
    · exact absurd hmem (hb.not_mem rfl)
  | hit url k d front back hreq hkey hf hfo hb hbo heq =>
    have hnot : .asked (.cacheLookup key) (some data) ∉
        ((sendAll d env.writes).calls.map (ClientEvent.relay .cached)).map .said ++ back := by
      simp only [List.mem_append, List.mem_map, reduceCtorEq, and_false, exists_false, false_or]
      exact hb.not_mem rfl
    obtain ⟨rfl, hx, rfl⟩ := (List.append_cons_inj_of_notMem (hf.not_mem rfl) hnot).1 heq.symm
    cases hx
    refine ⟨⟨url, hreq, hkey⟩, ?_⟩
    rw [outputs_append, outputs_asked, outputs_append, outputs_cached, hfo, hbo, List.nil_append, List.append_nil]

/-- Cached bytes are sent only after such a lookup. -/
theorem CacheUse.hit_of_cached {t' : Trace} {call : WriteCall} (h : CacheUse env (t ++ t'))
    (hm : .said (.relay .cached call) ∈ t) : ∃ a c key data, t = a ++ .asked (.cacheLookup key) (some data) :: c := by
  have hm' : .said (.relay .cached call) ∈ t ++ t' := List.mem_append_left _ hm
  cases h with
  | unused hn => exact absurd hm' (hn.not_mem rfl)
  | store url k d n b front back _ _ _ _ _ _ hf hb heq =>
    rw [heq] at hm'
    simp only [List.mem_append, List.mem_cons, reduceCtorEq, false_or] at hm'
    rcases hm' with hm' | hm'
    · exact absurd hm' (hf.not_mem rfl)
    · exact absurd hm' (hb.not_mem rfl)
  | hit url key data front back _ _ hf _ _ _ heq =>
    rcases List.append_eq_append_iff.1 heq with ⟨r, hr, -⟩ | ⟨r, rfl, hr⟩
    · rw [hr] at hf
      exact absurd hm ((noCache_append.1 hf).1.not_mem rfl)
    · cases r with
      | nil =>
        rw [List.append_nil] at hm
        exact absurd hm (hf.not_mem rfl)
      | cons x r =>
        simp only [List.cons_append, List.cons.injEq] at hr
        obtain ⟨rfl, -⟩ := hr
        exact ⟨front, r, key, data, rfl⟩

end

end SecureProxy
