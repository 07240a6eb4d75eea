/-
The provider behind the reputation module, and what the proxy's clients see of
it.

A provider is a function of the normalised host here, as the offline fixture
is. Every verdict that comes out of the module, from a call or from its cache
and in any order of the calls, their helpers and the workers, is then the
provider's own for that host or `unavailable`. `reputation_blocks` follows it
to the client: the page that blames the reputation is shown for no host but
one the first rule of the fixture that covers it calls malicious.
-/
import SecureProxy.FixtureFacts
import SecureProxy.OwnPages
import SecureProxy.Proxy
import SecureProxy.ReputationCache

namespace SecureProxy

open Bytes Machine Progs

def ReputationVerdict.toInt : ReputationVerdict → Int
  | .safe => 0
  | .suspicious => 1
  | .malicious => 2
  | .unavailable => 3

@[simp] theorem ofInt?_toInt (v : ReputationVerdict) : ReputationVerdict.ofInt? v.toInt = some v := by
  cases v <;> rfl

variable {lookup : List Byte → ReputationVerdict}

/-- The providers answer what `lookup` says of the host of the job. -/
def LooksUp (lookup : List Byte → ReputationVerdict) (s : RepSystem) : RepAction → Prop
  | .act i (.answer v) => ∀ c j, s.calls[i]? = some c → c.job = some j → v = (lookup j.host).toInt
  | _ => True

/-- A verdict about a host that is normalised. -/
def Vouched (lookup : List Byte → ReputationVerdict) (norm : List Byte) (v : ReputationVerdict) : Prop :=
  v = .unavailable ∨ v = lookup norm

/-- A result of a check of `host`. -/
def Gives (lookup : List Byte → ReputationVerdict) (host : List Byte) (res : ReputationResult) : Prop :=
  res.verdict = .unavailable ∨ ∃ norm, normaliseHost host = some norm ∧ res.verdict = lookup norm

theorem checkResult_vouched {norm : List Byte} {answer : Option Int} (h : ∀ v, answer = some v → v = (lookup norm).toInt)
    (ttl : Nat) : Vouched lookup norm (checkResult answer ttl).1.verdict := by
  cases answer with
  | none => exact .inl rfl
  | some v =>
    obtain rfl := h v rfl
    simp only [checkResult, ofInt?_toInt]
    cases hv : lookup norm with
    | unavailable => exact .inl rfl
    | safe | suspicious | malicious => exact .inr (by rw [hv])

/-! ## One call -/

/-- What the caller will do with its answer. -/
def CallerPc.next : CallerPc → Option AfterRelease
  | .releasing _ next | .dropped _ next _ | .settling _ next => some next
  | _ => none

/-- Where a call about `host` stands, and what it has heard so far. -/
structure TrueTo (lookup : List Byte → ReputationVerdict) (host : List Byte) (c : Call) : Prop where
  entering : ∀ h, c.pc = .entering h → h = host
  flight : ∀ r, c.pc.flight = some r → normaliseHost host = some r.norm
  job : ∀ j, c.job = some j → normaliseHost host = some j.host ∧ (j.done = true → j.verdict = (lookup j.host).toInt)
  answer : ∀ v, c.pc.next = some (.finish (some v)) → ∃ norm, normaliseHost host = some norm ∧ v = (lookup norm).toInt
  returned : ∀ r res, c.pc = .returned r res → Gives lookup host res

/-- The cache holds what the provider would say. -/
def CacheVouched (lookup : List Byte → ReputationVerdict) (g : RepState) : Prop :=
  ∀ e ∈ g.cache, e.used = true → Vouched lookup e.host e.verdict

theorem Enters.gives {g g' : RepState} {host : List Byte} {now : Int} {res : ReputationResult}
    (h : Enters g host now g' (.done res)) (hcache : CacheVouched lookup g) : Gives lookup host res := by
  cases h with
  | refused _ => exact .inl rfl
  | @hit _ norm i e hnorm hfind he _ =>
    obtain ⟨e', he', hused, rfl⟩ := cacheFind_some hfind
    cases he.symm.trans he'
    rcases hcache e (List.mem_of_getElem? he) hused with hv | hv
    · exact .inl hv
    · exact .inr ⟨e.host, hnorm, hv⟩

theorem Job.freeIf_kept (j : Job) (left : Int) :
    (j.freeIf left).host = j.host ∧ (j.freeIf left).done = j.done ∧ (j.freeIf left).verdict = j.verdict := by
  unfold Job.freeIf
  split <;> exact ⟨rfl, rfl, rfl⟩

/-- A job keeps what it is about and what it was told while its references go. -/
theorem TrueTo.jobKept {host : List Byte} {c : Call} (h : TrueTo lookup host c) {j j' : Job} (hj : c.job = some j)
    (hhost : j'.host = j.host) (hdone : j'.done = j.done) (hverdict : j'.verdict = j.verdict) :
    ∀ k, some j' = some k → normaliseHost host = some k.host ∧ (k.done = true → k.verdict = (lookup k.host).toInt) := by
  intro k hk
  cases hk
  rw [hhost, hdone, hverdict]
  exact h.job j hj

theorem TrueTo.settling {host : List Byte} {r : Reservation} {answer : Option Int} {job : Option Job} {helper : HelperPc}
    (h : TrueTo lookup host ⟨.settling r (.finish answer), job, helper⟩) :
    Vouched lookup r.norm (checkResult answer r.ttl).1.verdict := by
  refine checkResult_vouched (fun v hv => ?_) r.ttl
  obtain ⟨norm, hnorm, hv⟩ := h.answer v (by rw [hv]; rfl)
  cases (h.flight r rfl).symm.trans hnorm
  exact hv

theorem Turn.faithful {g : RepState} {since : Nat} {c : Call} {a : CallStep} {m : Moved} (ht : Turn g since c a m)
    (hcache : CacheVouched lookup g) (hans : ∀ v j, a = .answer v → c.job = some j → v = (lookup j.host).toInt)
    {host : List Byte} (h : TrueTo lookup host c) : TrueTo lookup host m.call := by
  cases ht with
  | done henters =>
    have hhost := h.entering _ rfl
    subst hhost
    exact ⟨nofun, nofun, h.job, nofun, fun r res hres => by cases hres; exact henters.gives hcache⟩
  | reserve henters =>
    have hhost := h.entering _ rfl
    subst hhost
    cases henters with
    | missed hnorm _ _ => exact ⟨nofun, fun r hr => by cases hr; exact hnorm, h.job, nofun, nofun⟩
  | prepare =>
    exact ⟨nofun, h.flight, fun j hj => by cases hj; exact ⟨h.flight _ rfl, nofun⟩, nofun, nofun⟩
  | prepareFails => exact ⟨nofun, h.flight, h.job, nofun, nofun⟩
  | start => exact ⟨nofun, h.flight, h.job, nofun, nofun⟩
  | startFails => exact ⟨nofun, h.flight, h.jobKept rfl rfl rfl rfl, nofun, nofun⟩
  | @wake r j helper =>
    refine ⟨nofun, h.flight, h.job, fun v hv => ?_, nofun⟩
    obtain ⟨hnorm, hdone⟩ := h.job j rfl
    cases hd : j.done with
    | false => simp [CallerPc.next, hd] at hv
    | true =>
      simp only [CallerPc.next, hd, if_true, Option.some.injEq, AfterRelease.finish.injEq] at hv
      exact ⟨j.host, hnorm, hv ▸ hdone hd⟩
  | drop => exact ⟨nofun, h.flight, h.jobKept rfl rfl rfl rfl, h.answer, nofun⟩
  | @free r next left j helper =>
    obtain ⟨hhost, hdone, hverdict⟩ := j.freeIf_kept left
    exact ⟨nofun, h.flight, h.jobKept rfl hhost hdone hverdict, h.answer, nofun⟩
  | undo => exact ⟨nofun, nofun, h.job, nofun, fun r res hres => by cases hres; exact .inl rfl⟩
  | @settle r answer job helper now =>
    refine ⟨nofun, nofun, h.job, nofun, fun r' res hres => ?_⟩
    cases hres
    rcases h.settling with hv | hv
    · exact .inl hv
    · exact .inr ⟨r.norm, h.flight r rfl, hv⟩
  | @answer pc j v =>
    refine ⟨h.entering, h.flight, fun j' hj' => ?_, h.answer, h.returned⟩
    cases hj'
    exact ⟨(h.job j rfl).1, fun _ => hans v j rfl rfl⟩
  | giveBack => exact ⟨h.entering, h.flight, h.job, h.answer, h.returned⟩
  | helperDrop => exact ⟨h.entering, h.flight, h.jobKept rfl rfl rfl rfl, h.answer, h.returned⟩
  | @helperFree pc j left =>
    obtain ⟨hhost, hdone, hverdict⟩ := j.freeIf_kept left
    exact ⟨h.entering, h.flight, h.jobKept rfl hhost hdone hverdict, h.answer, h.returned⟩

/-- What a call puts into the cache is what it heard. -/
theorem Turn.put_vouched {g : RepState} {since : Nat} {c : Call} {a : CallStep} {m : Moved} (ht : Turn g since c a m)
    {host : List Byte} (h : TrueTo lookup host c) {p : RepPut} (hp : m.put = some p) : Vouched lookup p.host p.verdict := by
  cases ht with
  | @settle r answer job helper now =>
    simp only [settledPut] at hp
    split at hp
    · cases hp
      exact h.settling
    · cases hp
  | _ => cases hp

theorem CacheMoves.vouched {g g' : RepState} {put : Option RepPut} (h : CacheMoves g g' put)
    (hcache : CacheVouched lookup g) (hput : ∀ p, put = some p → Vouched lookup p.host p.verdict) :
    CacheVouched lookup g' := by
  cases h with
  | quiet hc _ =>
    rw [CacheVouched, hc]
    exact hcache
  | touched i e he hused hc _ =>
    intro x hx hxused
    rw [hc] at hx
    rcases List.mem_or_eq_of_mem_set hx with hx | rfl
    · exact hcache x hx hxused
    · exact hcache e (List.mem_of_getElem? he) hused
  | stored i e p he _ hc _ =>
    intro x hx hxused
    rw [hc] at hx
    rcases List.mem_or_eq_of_mem_set hx with hx | rfl
    · exact hcache x hx hxused
    · exact hput p rfl

/-! ## Every run -/

/-- The calls are faithful each to its host, and so is the cache. -/
structure VerdictInv (lookup : List Byte → ReputationVerdict) (actions : List RepAction) : Prop where
  cache : CacheVouched lookup (repRun actions).rep
  calls : ∀ (i : Nat) c, (repRun actions).calls[i]? = some c →
    ∃ host, (callHosts actions)[i]? = some host ∧ TrueTo lookup host c

theorem cacheVouched_zeroed {g : RepState} (h : g.cache = List.replicate reputationCacheEntries .zero) :
    CacheVouched lookup g := by
  intro e he hused
  rw [h] at he
  rw [zeroed_unused he] at hused
  cases hused

theorem VerdictInv.snoc {actions : List RepAction} {a : RepAction} (h : VerdictInv lookup actions)
    (ha : LooksUp lookup (repRun actions) a) : VerdictInv lookup (actions ++ [a]) := by
  have hkeep : ∀ (i : Nat) c, (repRun actions).calls[i]? = some c →
      ∃ host, (callHosts (actions ++ [a]))[i]? = some host ∧ TrueTo lookup host c := by
    intro i c hc
    obtain ⟨host, hhost, hfaithful⟩ := h.calls i c hc
    refine ⟨host, ?_, hfaithful⟩
    rw [callHosts_append, List.getElem?_append_left (List.getElem?_eq_some_iff.1 hhost).1]
    exact hhost
  have hanswer : ∀ {i : Nat} {act c}, a = .act i act → (repRun actions).calls[i]? = some c →
      ∀ v j, act = .answer v → c.job = some j → v = (lookup j.host).toInt := by
    rintro i act c rfl hc v j rfl hj
    exact ha c j hc hj
  refine ⟨?_, fun i c hc => ?_⟩
  · rw [repRun_snoc]
    cases a with
    | init provider timeoutMs ttl => exact cacheVouched_zeroed rfl
    | shutdown => exact h.cache
    | call host => exact h.cache
    | act i act =>
      rcases repStep_act (repRun actions) i act with heq | ⟨c, m, hc, hm, heq⟩
      · rw [heq]
        exact h.cache
      · rw [heq]
        obtain ⟨host, -, hfaithful⟩ := h.calls i c hc
        exact (hm.cacheMoves (repRun_cacheOk actions).nonempty).vouched h.cache fun p hp => hm.put_vouched hfaithful hp
  · rcases calls_snoc hc with hold | ⟨host, rfl, rfl, rfl⟩ | ⟨act, c', m, rfl, hc', hm, -, rfl⟩
    · exact hkeep i c hold
    · refine ⟨host, by simp [callHosts, RepAction.host?], ⟨fun h hh => ?_, nofun, nofun, nofun, nofun⟩⟩
      cases hh
      rfl
    · obtain ⟨host, hhost, hfaithful⟩ := hkeep i c' hc'
      exact ⟨host, hhost, hm.faithful h.cache (hanswer rfl hc') hfaithful⟩

theorem verdictInv_nil : VerdictInv lookup [] where
  cache := cacheVouched_zeroed rfl
  calls i c hc := by cases hc

/-! ## Who is blamed -/

/-- The page that says the reputation of the host is why. -/
def ClientEvent.blames : ClientEvent → Bool
  | .respond (.blockPage .reputation _) _ => true
  | _ => false

/-- A response that does not say it. -/
def ProxyResponse.Blameless (r : ProxyResponse) : Prop := ∀ page, r ≠ .blockPage .reputation page

theorem blameless_pastChecks (requestId : UInt64) : PastChecks requestId ProxyResponse.Blameless where
  error _ _ _ heq := by cases heq
  blocked reason _ hreason page heq := by
    cases heq
    exact hreason rfl
  established _ heq := by cases heq

theorem ClientEvent.blames_respond {e : ClientEvent} (h : e.blames = true) :
    ∃ page calls, e = .respond (.blockPage .reputation page) calls := by
  unfold ClientEvent.blames at h
  split at h
  · exact ⟨_, _, rfl⟩
  · cases h

/-- The answers of the module. -/
def ReputationAnswers (lookup : List Byte → ReputationVerdict) : (q : Query) → q.Answer → Prop
  | .reputationCheck host, res => Gives lookup host res
  | _, _ => True

/-- The host of a run that blames the reputation has it coming. -/
theorem runs_handleClient_blames {g : Globals} {env : ClientEnv} {t : Trace} {u : Unit}
    (h : Runs (ReputationAnswers lookup) (handleClient g (some env)) t u) {e : ClientEvent} (hm : .said e ∈ t)
    (he : e.blames = true) :
    ∃ req norm, readRequest env.client = some req ∧ normaliseHost req.host = some norm ∧ lookup norm = .malicious := by
  obtain ⟨requestId, t₁, o, hrun, rfl⟩ := runs_handleClient h
  have hm : .said e ∈ t₁ := by
    rcases said_wholeRun requestId env.durationMs o t₁ hm with hm | rfl | rfl | rfl
    · exact hm
    · cases he
    · cases he
    · cases he
  have heq := serveClient_eq g env requestId
  cases hreq : readRequest env.client with
  | none =>
    rw [hreq] at heq
    rcases heq.runs hrun with rfl | ⟨status, bytes, calls, rfl⟩
    · cases hm
    · simp only [List.mem_singleton, Obs.said.injEq] at hm
      subst hm
      cases he
  | some req =>
    rw [hreq] at heq
    rw [show serveClient g env requestId = _ from heq] at hrun
    rcases runs_serveRequest hrun with ⟨-, rfl⟩ | ⟨-, hg⟩
    · simp only [List.mem_singleton, Obs.said.injEq] at hm
      subst hm
      cases he
    · cases hg with
      | policy d t₂ hok hne hask heq =>
        subst heq
        rcases List.mem_append.1 hm with hm | hm
        · exact absurd hm (hask.not_said _)
        · simp only [List.mem_singleton, Obs.said.injEq] at hm
          subst hm
          cases he
      | reputation t₂ hok hbad hask heq =>
        subst heq
        obtain ⟨res, hres, hmalicious⟩ := hbad
        have hgives : Gives lookup req.host res := Runs.asked hrun (List.mem_append_left _ hres)
        rcases hgives with hv | ⟨norm, hnorm, hv⟩
        · cases hmalicious.symm.trans hv
        · exact ⟨req, norm, rfl, hnorm, hv.symm.trans hmalicious⟩
      | cleared t₂ t₃ o₁ hok hgood hask hrun' heq =>
        subst heq
        rcases List.mem_append.1 hm with hm | hm
        · exact absurd hm (hask.not_said _)
        · obtain ⟨page, calls, rfl⟩ := ClientEvent.blames_respond he
          exact absurd rfl ((serveAllowed_speaks (blameless_pastChecks requestId)).run hrun' hm page)

/-! ## The workers and the module -/

/-- All that has happened in the module, and the calls whose results have
been taken by a worker. -/
structure RepShared where
  actions : List RepAction := []
  taken : List Nat := []

/-- The call at `i`, about `host`, has come back with `res` and is still to
be taken. -/
structure Returns (s : RepShared) (i : Nat) (host : List Byte) (res : ReputationResult) : Prop where
  back : ∃ c r, (repRun s.actions).calls[i]? = some c ∧ c.pc = .returned r res
  host : (callHosts s.actions)[i]? = some host
  fresh : i ∉ s.taken

def serveReputation (s : RepShared) : (q : Query) → q.Answer → Unit → RepShared → Prop
  | .reputationIsEnabled, on, _, s' => on = (repRun s.actions).rep.enabled ∧ s' = s
  | .reputationCheck host, res, _, s' => ∃ i, Returns s i host res ∧ s' = { s with taken := i :: s.taken }
  | _, _, _, s' => s' = s

/-- Workers whose checks are calls of the module. What else they ask may be
answered in any way. -/
def reputationService (g : Globals) (lookup : List Byte → ReputationVerdict) :
    Service Query.Answer ClientEvent Unit RepShared (Option ClientEnv) Unit where
  prog := handleClient g
  start s _ s' := s' = s
  serve := serveReputation
  outside s s' := ∃ a, LooksUp lookup (repRun s.actions) a ∧ s' = { s with actions := s.actions ++ [a] }

abbrev RepPool := Pool Query.Answer ClientEvent Unit RepShared (Option ClientEnv) Unit

structure PoolVouched (lookup : List Byte → ReputationVerdict) (P : RepPool) : Prop where
  module : VerdictInv lookup P.shared.actions
  answers : ∀ x ∈ P.log, ∀ q a, x.obs = .asked q a → ReputationAnswers lookup q a

theorem serveReputation_vouched {s s' : RepShared} {q : Query} {a : q.Answer} {n : Unit} (h : serveReputation s q a n s')
    (hinv : VerdictInv lookup s.actions) : s'.actions = s.actions ∧ ReputationAnswers lookup q a := by
  cases q with
  | reputationCheck host =>
    obtain ⟨i, hreturns, rfl⟩ := h
    obtain ⟨c, r, hc, hpc⟩ := hreturns.back
    obtain ⟨host', hhost, hfaithful⟩ := hinv.calls i c hc
    cases hreturns.host.symm.trans hhost
    exact ⟨rfl, hfaithful.returned r a hpc⟩
  | reputationIsEnabled => exact ⟨by rw [h.2], trivial⟩
  | _ => exact ⟨by rw [show s' = s from h], trivial⟩

theorem PoolVouched.step {g : Globals} {P P' : RepPool} (h : PoolVouched lookup P)
    (hs : Pool.Step (reputationService g lookup) P P') : PoolVouched lookup P' := by
  cases hs with
  | start hstart =>
    cases hstart
    exact ⟨h.module, h.answers⟩
  | say hw =>
    refine ⟨h.module, fun x hx q a hobs => ?_⟩
    rcases List.mem_append.1 hx with hx | hx
    · exact h.answers x hx q a hobs
    · rw [List.mem_singleton.1 hx] at hobs
      cases hobs
  | ask hw hserve =>
    obtain ⟨hactions, hanswer⟩ := serveReputation_vouched hserve h.module
    refine ⟨by rw [hactions]; exact h.module, fun x hx q a hobs => ?_⟩
    rcases List.mem_append.1 hx with hx | hx
    · exact h.answers x hx q a hobs
    · rw [List.mem_singleton.1 hx] at hobs
      cases hobs
      exact hanswer
  | outside hmove =>
    obtain ⟨a, ha, rfl⟩ := hmove
    exact ⟨h.module.snoc ha, h.answers⟩

theorem reputationService_vouched {g : Globals} {P : RepPool} (h : Pool.Reach (reputationService g lookup) {} P) :
    PoolVouched lookup P :=
  h.invariant (PoolVouched lookup) ⟨verdictInv_nil, nofun⟩ fun _ _ ih hs _ => ih.step hs

/-- A worker's past is the beginning of a run under the provider's answers. -/
theorem reputationService_runs {g : Globals} {P : RepPool} (h : Pool.Reach (reputationService g lookup) {} P) {i : Nat}
    {w : Worker Query.Answer ClientEvent Unit (Option ClientEnv)} (hw : P.workers[i]? = some w) :
    ∃ t u, Runs (ReputationAnswers lookup) (handleClient g w.seed) (past P.log i ++ t) u := by
  have hvouched := reputationService_vouched h
  have hleads := (h.sound.leads i w hw).answers fun q a hm => by
    obtain ⟨x, hx, -, hobs⟩ := mem_past hm
    exact hvouched.answers x hx q a hobs
  refine hleads.completes fun q => ?_
  cases q with
  | reputationCheck host => exact ⟨⟨.unavailable, .error⟩, .inl rfl⟩
  | _ => exact ⟨offAnswers .zero _, trivial⟩

theorem said_of_mem_outputs {t : Trace} {r : ProxyResponse} {calls : List WriteCall} (h : .response r calls ∈ outputs t) :
    .said (.respond r calls) ∈ t := by
  have hevent : ∀ {e : ClientEvent}, e.output = some (.response r calls) → e = .respond r calls := by
    intro e he
    unfold ClientEvent.output at he
    split at he
    · cases he
      rfl
    · cases he
    · cases he
    · cases he
  obtain ⟨o, ho, heq⟩ := List.mem_filterMap.1 h
  cases o with
  | asked q a => cases heq
  | said e => exact hevent heq ▸ ho

/-- The answer of one call, chosen by its index, and plain answers else. -/
def reputationChoice (lookup : List Byte → ReputationVerdict) :
    Choice Query.Answer RepShared (Option ClientEnv) Unit Nat RepAction where
  start s _ := some s
  serve s q i :=
    match q with
    | .reputationIsEnabled => some ((repRun s.actions).rep.enabled, (), s)
    | .reputationCheck host =>
      match (repRun s.actions).calls[i]? with
      | some ⟨.returned _ res, _, _⟩ =>
        if (callHosts s.actions)[i]? = some host ∧ i ∉ s.taken then some (res, (), { s with taken := i :: s.taken }) else none
      | _ => none
    | .nextRequestId => some (1, (), s)
    | .policyCheckHost _ => some (.allow, (), s)
    | .cacheIsEnabled => some (false, (), s)
    | .cacheLookup _ => some (none, (), s)
    | .cacheStore .. => some (false, (), s)
    | .leave => some ((), (), s)
  outside s a :=
    match a with
    | .act i (.answer _) =>
      match (repRun s.actions).calls[i]?.bind (·.job) with
      | some j => { s with actions := s.actions ++ [.act i (.answer (lookup j.host).toInt)] }
      | none => { s with actions := s.actions ++ [.shutdown] }
    | a => { s with actions := s.actions ++ [a] }

theorem reputationChoice_within (g : Globals) (lookup : List Byte → ReputationVerdict) :
    (reputationChoice lookup).Within (reputationService g lookup) where
  start s _ s' h := (Option.some.inj h).symm
  serve s q i a n s' h := by
    cases q with
    | reputationIsEnabled =>
      cases h
      exact ⟨rfl, rfl⟩
    | reputationCheck host =>
      simp only [reputationChoice] at h
      split at h
      · rename_i r res job helper hc
        split at h
        · rename_i hfresh
          cases h
          exact ⟨i, ⟨⟨_, r, hc, rfl⟩, hfresh.1, hfresh.2⟩, rfl⟩
        · cases h
      · cases h
    | _ =>
      cases h
      rfl
  outside s a := by
    simp only [reputationChoice]
    split
    · split
      · rename_i i v _ j hj
        refine ⟨.act i (.answer (lookup j.host).toInt), fun c j' hc hj' => ?_, rfl⟩
        rw [hc] at hj
        cases hj.symm.trans hj'
        rfl
      · exact ⟨.shutdown, trivial, rfl⟩
    · rename_i hnot
      refine ⟨a, ?_, rfl⟩
      cases a with
      | act i step =>
        cases step with
        | answer v => exact absurd rfl (hnot i v)
        | _ => trivial
      | _ => trivial

def badHost : List Byte := bytes "www.bad.test"

def fixtureStart : StartEnv where
  getenv var := if var = "PROXY_REPUTATION_FIXTURE" then some (bytes "rules") else none
  file path := if path = bytes "rules" then some (bytes "ok.bad.test safe\n.bad.test malicious\n") else none
  logOpens _ := true

def fixtureRules : List FixtureRule :=
  [⟨⟨bytes "ok.bad.test", false⟩, .safe⟩, ⟨⟨bytes "bad.test", true⟩, .malicious⟩]

def fixtureStarted : Started where
  logging := true
  policy := .zero
  timeouts := {}
  globals := {}
  listenPort := 8080
  provided := { fixture := some { rules := fixtureRules }, reputation := reputationInit {} 0 1500 300 }
  cache := (cacheInit {} cacheDefaultMaxEntries cacheDefaultMaxTotalBytes cacheDefaultMaxEntryBytes true).1

/-- One client, whose host is looked up while it waits. -/
def blamedPool : RepPool :=
  let check : List RepAction := [.init 0 1500 300, .call badHost, .act 0 (.enter 100), .act 0 (.prepare true),
    .act 0 (.start true), .act 0 (.answer 0), .act 0 .wake, .act 0 .drop, .act 0 .free, .act 0 (.settle 101)]
  let moves : List (Move (Option ClientEnv) Nat RepAction) :=
    .start (some (idleEnv (bytes "http://www.bad.test/\n"))) :: check.map .outside ++ List.replicate 9 (.turn 0 0)
  moves.foldl (Pool.move (handleClient fixtureStarted.globals) (reputationChoice (fixtureLookup fixtureRules))) ⟨{}, [], []⟩

end SecureProxy
