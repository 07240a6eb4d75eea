/-
The counters of the reputation module. A check counts itself in one or two
critical sections, under what it came to; so in every run since the module was
started, each counter is the number of calls that count under it, and how the
counters add up is how the results of a single call do.
-/
import SecureProxy.Lib.Slots
import SecureProxy.ReputationSteps

namespace SecureProxy

open Bytes Machine Slots

/-! ## What a call counts under -/

/-- The fields of `ReputationStats`. -/
inductive Counter where
  | lookups
  | providerCalls
  | cacheHits
  | timeouts
  | errors
  | saturated
  | rejectedInput
  | safe
  | suspicious
  | malicious
  | unavailable
  deriving DecidableEq, Repr

def ReputationStats.get (s : ReputationStats) : Counter → Nat
  | .lookups => s.lookups
  | .providerCalls => s.providerCalls
  | .cacheHits => s.cacheHits
  | .timeouts => s.timeouts
  | .errors => s.errors
  | .saturated => s.saturated
  | .rejectedInput => s.rejectedInput
  | .safe => s.safe
  | .suspicious => s.suspicious
  | .malicious => s.malicious
  | .unavailable => s.unavailable

/-- What a finished check counts under. A verdict that says something counts
only where the provider was `asked`. -/
def ReputationResult.counts (asked : Bool) (res : ReputationResult) : Counter → Bool
  | .lookups => true
  | .providerCalls => asked
  | .cacheHits => res.reason == .cache
  | .timeouts => res.reason == .timeout
  | .errors => res.reason == .error
  | .saturated => res.reason == .saturated
  | .rejectedInput => res.reason == .badInput
  | .safe => asked && res.verdict == .safe
  | .suspicious => asked && res.verdict == .suspicious
  | .malicious => asked && res.verdict == .malicious
  | .unavailable => res.verdict == .unavailable

/-- What a check counts under once a provider call is reserved for it. -/
def Counter.reserves (k : Counter) : Bool := k == .lookups || k == .providerCalls

/-- What a call has counted under so far. -/
def Call.counts (k : Counter) (c : Call) : Bool :=
  match c.pc with
  | .entering _ => false
  | .returned r res => res.counts r.isSome k
  | _ => k.reserves

def Entered.counts (k : Counter) : Entered → Bool
  | .done res => res.counts false k
  | .reserved .. => k.reserves

/-- The results a check can come to, with the provider asked or not. -/
def ReputationResult.fits (asked : Bool) (res : ReputationResult) : Bool :=
  match asked, res.reason with
  | false, .cache => true
  | false, .error | false, .badInput | false, .saturated => res.verdict == .unavailable
  | true, .ok => res.verdict != .unavailable
  | true, .timeout | true, .error => res.verdict == .unavailable
  | _, _ => false

def Call.fits (c : Call) : Bool :=
  match c.pc with
  | .returned r res => res.fits r.isSome
  | _ => true

/-- The module was not enabled when the check entered. -/
def Call.disabled (c : Call) : Bool :=
  match c.pc with
  | .returned none ⟨_, .error⟩ => true
  | _ => false

/-- The check returned `REP_UNAVAILABLE` from the cache. -/
def Call.cachedUnavailable (c : Call) : Bool :=
  match c.pc with
  | .returned _ ⟨.unavailable, .cache⟩ => true
  | _ => false

/-- The check is yet to take the mutex for the first time. -/
def Call.enters (c : Call) : Bool :=
  match c.pc with
  | .entering _ => true
  | _ => false

/-- A step in which the call finds the module not enabled. -/
def Call.findsDisabled (g : RepState) (c : Call) : CallStep → Bool
  | .enter _ => !g.enabled && c.enters
  | _ => false

def findsDisabled (s : RepSystem) : RepAction → Bool
  | .act i a => s.calls[i]?.any fun c => c.findsDisabled s.rep a
  | _ => false

/-! ## One step -/

theorem checkEnter_reserve_counts (g : RepState) (norm : List Byte) (k : Counter) :
    (checkEnter.reserve g { g.stats with lookups := g.stats.lookups + 1 } norm).1.stats.get k = g.stats.get k +
      ((checkEnter.reserve g { g.stats with lookups := g.stats.lookups + 1 } norm).2.counts k).toNat := by
  unfold checkEnter.reserve
  split
  · cases k <;> rfl
  · cases k <;> rfl

/-- The first section counts the check under what it leaves it with. -/
theorem checkEnter_counts (g : RepState) (host : List Byte) (now : Int) (k : Counter) :
    (checkEnter g host now).1.stats.get k = g.stats.get k + ((checkEnter g host now).2.counts k).toNat := by
  unfold checkEnter
  dsimp only
  split
  · cases k <;> rfl
  · split
    · cases k <;> rfl
    · split
      · rename_i hit _
        split
        · cases hv : hit.verdict <;> cases k <;> simp [ReputationStats.get, Entered.counts, ReputationResult.counts]
        · exact checkEnter_reserve_counts ..
      · exact checkEnter_reserve_counts ..

theorem checkEnter_reserve_fits {g : RepState} {s : ReputationStats} {norm : List Byte} {res : ReputationResult}
    (h : (checkEnter.reserve g s norm).2 = .done res) : res.fits false = true ∧ res.reason ≠ .error := by
  unfold checkEnter.reserve at h
  split at h
  · cases h
    exact ⟨rfl, by simp⟩
  · cases h

/-- What the first section answers by itself. It is an error exactly where the
module is not enabled. -/
theorem checkEnter_fits {g : RepState} {host : List Byte} {now : Int} {res : ReputationResult}
    (h : (checkEnter g host now).2 = .done res) :
    res.fits false = true ∧ (res.reason = .error ↔ g.enabled = false) := by
  unfold checkEnter at h
  dsimp only at h
  by_cases hen : g.enabled = true
  · rw [if_neg (by simp [hen])] at h
    have hmain : res.fits false = true ∧ res.reason ≠ .error := by
      split at h
      · cases h
        exact ⟨rfl, by simp⟩
      · split at h
        · split at h
          · cases h
            exact ⟨rfl, by simp⟩
          · exact checkEnter_reserve_fits h
        · exact checkEnter_reserve_fits h
    exact ⟨hmain.1, by simp [hmain.2, hen]⟩
  · rw [if_pos (by simp [hen])] at h
    cases h
    exact ⟨rfl, by simp [hen]⟩

/-- A check is left with a reservation only where the module is enabled. -/
theorem checkEnter_enabled {g : RepState} {host : List Byte} {now : Int} (h : g.enabled = false) :
    ∃ res, (checkEnter g host now).2 = .done res := by
  simp [checkEnter, h]

theorem cachePut_stats (g : RepState) (host : List Byte) (v : ReputationVerdict) (ttl : Nat) (now : Int) :
    (cachePut g host v ttl now).stats = g.stats := by
  unfold cachePut
  split
  · rfl
  · split <;> rfl

theorem checkFinish_stats (g : RepState) (norm : List Byte) (res : ReputationResult) (ttl : Nat) (now : Int) :
    (checkFinish g norm res ttl now).stats = countReason (countVerdict g.stats res.verdict) res.reason := by
  unfold checkFinish
  dsimp only
  split
  · rw [cachePut_stats]
  · rfl

theorem checkResult_fits (answer : Option Int) (ttl : Nat) : (checkResult answer ttl).1.fits true = true := by
  unfold checkResult
  split
  · rfl
  · split
    · rfl
    · rfl
    · rename_i verdict _ hne _
      cases verdict <;> simp_all [ReputationResult.fits]

/-- The last section counts the check under its result; that it was one, and
asked a provider, the first section has counted. -/
theorem count_result {s : ReputationStats} {res : ReputationResult} (h : res.fits true = true) (k : Counter) :
    (countReason (countVerdict s res.verdict) res.reason).get k + k.reserves.toNat =
      s.get k + (res.counts true k).toNat := by
  obtain ⟨verdict, reason⟩ := res
  cases verdict <;> cases reason <;> first
    | (cases k <;> rfl)
    | cases h

/-- What a step of a call does to the counters and to the call; `found` where
it found the module not enabled. -/
structure CallCounts (g : RepState) (c : Call) (found : Bool) (m : Moved) : Prop where
  counts : ∀ k, m.rep.stats.get k + (c.counts k).toNat = g.stats.get k + (m.call.counts k).toNat
  fits : c.fits = true → m.call.fits = true
  disabled : m.call.disabled.toNat = c.disabled.toNat + found.toNat

/-- A step that counts nothing. -/
theorem CallCounts.still {g : RepState} {c : Call} {m : Moved} (hstats : m.rep.stats = g.stats)
    (hcounts : ∀ k, m.call.counts k = c.counts k) (hfits : m.call.fits = c.fits) (hdisabled : m.call.disabled = c.disabled) :
    CallCounts g c false m :=
  ⟨fun k => by rw [hstats, hcounts], fun h => by rw [hfits, h], by rw [hdisabled]; rfl⟩

theorem enterStep_counts {g : RepState} {since : Nat} {c : Call} {now : Int} {m : Moved}
    (h : enterStep g since c now = some m) : CallCounts g c (!g.enabled && c.enters) m := by
  obtain ⟨pc, job, helper⟩ := c
  cases pc with
  | entering host =>
    simp only [enterStep] at h
    have hcounts := checkEnter_counts g host now
    have hfits := @checkEnter_fits g host now
    have hnone := @checkEnter_enabled g host now
    generalize checkEnter g host now = entered at h hcounts hfits hnone
    obtain ⟨g', e⟩ := entered
    cases e with
    | done res =>
      cases h
      obtain ⟨hres, herror⟩ := hfits rfl
      refine ⟨fun k => hcounts k, fun _ => hres, ?_⟩
      obtain ⟨verdict, reason⟩ := res
      cases hen : g.enabled with
      | false =>
        obtain rfl : reason = .error := herror.2 hen
        rfl
      | true =>
        have hne : reason ≠ .error := fun hr => by simp [hen, hr] at herror
        simp [Call.disabled, hne]
    | reserved norm provider timeoutMs ttl =>
      cases h
      refine ⟨fun k => hcounts k, fun _ => rfl, ?_⟩
      cases hen : g.enabled with
      | false =>
        obtain ⟨res, hres⟩ := hnone hen
        cases hres
      | true => rfl
  | _ => cases h

/-- **What any step of a call counts.** -/
theorem callStep_counts {g : RepState} {since : Nat} {c : Call} {a : CallStep} {m : Moved}
    (h : callStep g since c a = some m) :
    CallCounts g c (c.findsDisabled g a) m := by
  have hturn := callStep_turn h
  cases hturn with
  | done _ => exact enterStep_counts h
  | reserve _ => exact enterStep_counts h
  | prepare => exact .still rfl (fun _ => rfl) rfl rfl
  | prepareFails => exact .still rfl (fun _ => rfl) rfl rfl
  | start => exact .still rfl (fun _ => rfl) rfl rfl
  | startFails => exact .still rfl (fun _ => rfl) rfl rfl
  | wake => exact .still rfl (fun _ => rfl) rfl rfl
  | drop => exact .still rfl (fun _ => rfl) rfl rfl
  | free => exact .still rfl (fun _ => rfl) rfl rfl
  | @undo r job helper now =>
    refine ⟨fun k => ?_, fun _ => rfl, rfl⟩
    cases k <;> rfl
  | @settle r answer job helper now =>
    have hfits := checkResult_fits answer r.ttl
    refine ⟨fun k => ?_, fun _ => hfits, rfl⟩
    rw [checkFinish_stats]
    exact count_result hfits k
  | answer => exact .still rfl (fun _ => rfl) rfl rfl
  | giveBack => exact .still rfl (fun _ => rfl) rfl rfl
  | helperDrop => exact .still rfl (fun _ => rfl) rfl rfl
  | helperFree => exact .still rfl (fun _ => rfl) rfl rfl

/-- A call that can enter does. -/
theorem findsDisabled_of_none {g : RepState} {since : Nat} {c : Call} {a : CallStep} (h : callStep g since c a = none) :
    c.findsDisabled g a = false := by
  cases a with
  | enter now =>
    obtain ⟨pc, job, helper⟩ := c
    cases pc with
    | entering host =>
      simp only [callStep, enterStep] at h
      split at h <;> cases h
    | _ => simp [Call.findsDisabled, Call.enters]
  | _ => rfl

/-! ## Runs -/

/-- The counters are those of the calls, `d` of which found the module not
enabled. -/
structure CountersInv (s : RepSystem) (d : Nat) : Prop where
  counts : ∀ k, s.rep.stats.get k = s.calls.countP (Call.counts k)
  fits : ∀ c ∈ s.calls, c.fits = true
  disabled : s.calls.countP Call.disabled = d

theorem CountersInv.start (provider timeoutMs ttl : Nat) : CountersInv (repStep {} (.init provider timeoutMs ttl)).1 0 :=
  ⟨fun k => by cases k <;> rfl, by simp [repStep], rfl⟩

/-- A step that is not another `reputation_init`. -/
def RepAction.isInit : RepAction → Bool
  | .init .. => true
  | _ => false

theorem CountersInv.step {s : RepSystem} {d : Nat} (h : CountersInv s d) {a : RepAction} (ha : a.isInit = false) :
    CountersInv (repStep s a).1 (d + (findsDisabled s a).toNat) := by
  cases a with
  | init provider timeoutMs ttl => cases ha
  | shutdown => exact ⟨h.counts, h.fits, h.disabled⟩
  | call host =>
    refine ⟨fun k => ?_, fun c hc => ?_, ?_⟩
    · simp only [repStep, List.countP_append]
      exact h.counts k
    · rcases List.mem_append.1 hc with hc | hc
      · exact h.fits c hc
      · rw [List.mem_singleton.1 hc]
        rfl
    · simp only [repStep, List.countP_append]
      exact h.disabled
  | act i a =>
    simp only [repStep]
    cases hm : s.calls[i]?.bind fun c => callStep s.rep s.puts.length c a with
    | none =>
      have hnot : findsDisabled s (.act i a) = false := by
        simp only [findsDisabled]
        cases hc : s.calls[i]? with
        | none => rfl
        | some c =>
          rw [hc] at hm
          exact findsDisabled_of_none hm
      rw [hnot]
      exact h
    | some m =>
      obtain ⟨c, hc, hstep⟩ := Option.bind_eq_some_iff.1 hm
      have hcall := callStep_counts hstep
      have hmem := List.mem_of_getElem? hc
      refine ⟨fun k => ?_, fun c' hc' => ?_, ?_⟩
      · have hset := countP_set hc m.call (Call.counts k)
        have hk := hcall.counts k
        have hold := h.counts k
        simp only
        omega
      · rcases List.mem_or_eq_of_mem_set hc' with hc' | rfl
        · exact h.fits c' hc'
        · exact hcall.fits (h.fits c hmem)
      · have hset := countP_set hc m.call Call.disabled
        have hd := hcall.disabled
        have hold := h.disabled
        simp only [findsDisabled, hc, Option.any_some]
        omega

theorem repRun_countersInv (provider timeoutMs ttl : Nat) {rest : List RepAction} (h : ∀ a ∈ rest, a.isInit = false) :
    CountersInv (repRun (.init provider timeoutMs ttl :: rest))
      (count findsDisabled repStep {} (.init provider timeoutMs ttl :: rest)) := by
  induction rest using List.reverseRecOn with
  | nil => exact .start provider timeoutMs ttl
  | append_singleton rest a ih =>
    have hrest := ih fun a' ha' => h a' (List.mem_append_left _ ha')
    have hstep := hrest.step (h a (List.mem_append_right _ List.mem_cons_self))
    rw [← List.cons_append, repRun_snoc, count_append]
    simpa [count, repRun] using hstep

/-! ## How the counters add up -/

/-- A call counts under as many counters of the one side as of the other. -/
theorem Call.lookups_counts {c : Call} (h : c.fits = true) :
    (([Call.counts .lookups]).map fun p => (p c).toNat).sum =
      ([Call.counts .rejectedInput, Call.counts .cacheHits, Call.counts .saturated, Call.counts .providerCalls,
        Call.disabled].map fun p => (p c).toNat).sum := by
  obtain ⟨pc, job, helper⟩ := c
  cases pc with
  | returned r res =>
    obtain ⟨verdict, reason⟩ := res
    cases r <;> cases reason <;> first
      | rfl
      | cases h
  | _ => rfl

theorem Call.providerCalls_counts {c : Call} (h : c.fits = true) (hidle : c.pc.flight = none) :
    ([Call.counts .providerCalls, Call.disabled].map fun p => (p c).toNat).sum =
      ([Call.counts .safe, Call.counts .suspicious, Call.counts .malicious, Call.counts .timeouts,
        Call.counts .errors].map fun p => (p c).toNat).sum := by
  obtain ⟨pc, job, helper⟩ := c
  cases pc with
  | entering host => rfl
  | returned r res =>
    obtain ⟨verdict, reason⟩ := res
    cases r <;> cases reason <;> cases verdict <;> first
      | rfl
      | cases h
  | _ => cases hidle

theorem Call.unavailable_counts {c : Call} (h : c.fits = true) (hidle : c.pc.flight = none) :
    ([Call.counts .unavailable].map fun p => (p c).toNat).sum =
      ([Call.counts .rejectedInput, Call.counts .saturated, Call.counts .timeouts, Call.counts .errors,
        Call.cachedUnavailable].map fun p => (p c).toNat).sum := by
  obtain ⟨pc, job, helper⟩ := c
  cases pc with
  | entering host => rfl
  | returned r res =>
    obtain ⟨verdict, reason⟩ := res
    cases r <;> cases reason <;> cases verdict <;> first
      | rfl
      | cases h
  | _ => cases hidle

theorem Call.errors_counts {c : Call} (h : c.disabled = true) : c.counts .errors = true := by
  obtain ⟨pc, job, helper⟩ := c
  cases pc with
  | returned r res =>
    obtain ⟨verdict, reason⟩ := res
    cases r <;> cases reason <;> first
      | rfl
      | cases h
  | _ => cases h

namespace CountersInv

variable {s : RepSystem} {d : Nat}

theorem lookups (h : CountersInv s d) : s.rep.stats.lookups =
    s.rep.stats.rejectedInput + s.rep.stats.cacheHits + s.rep.stats.saturated + s.rep.stats.providerCalls + d := by
  have hsum := sum_countP fun c hc => Call.lookups_counts (h.fits c hc)
  simp only [List.map_cons, List.map_nil, List.sum_cons, List.sum_nil, ← h.counts, h.disabled, ReputationStats.get] at hsum
  omega

theorem idle (h : CountersInv s d) (hidle : ∀ c ∈ s.calls, c.pc.flight = none) :
    d ≤ s.rep.stats.errors ∧
      s.rep.stats.providerCalls = s.rep.stats.safe + s.rep.stats.suspicious + s.rep.stats.malicious +
        s.rep.stats.timeouts + (s.rep.stats.errors - d) ∧
      s.rep.stats.unavailable = s.rep.stats.rejectedInput + s.rep.stats.saturated + s.rep.stats.timeouts +
        s.rep.stats.errors + s.calls.countP Call.cachedUnavailable := by
  have hprovider := sum_countP fun c hc => Call.providerCalls_counts (h.fits c hc) (hidle c hc)
  have hunavailable := sum_countP fun c hc => Call.unavailable_counts (h.fits c hc) (hidle c hc)
  have hle : s.calls.countP Call.disabled ≤ s.calls.countP (Call.counts .errors) :=
    List.countP_mono_left fun _ _ => Call.errors_counts
  rw [← h.counts, h.disabled] at hle
  simp only [List.map_cons, List.map_nil, List.sum_cons, List.sum_nil, ← h.counts, h.disabled, ReputationStats.get]
    at hprovider hunavailable hle
  omega

end CountersInv

/-- **Every check is counted, once and under what it came to.** In every state
after one `reputation_init`, the lookups are the rejected ones, the hits, the
saturated ones, the provider calls and those that found the module disabled;
and once no check is under way, the provider calls and the unavailable answers
are accounted for too. -/
theorem repRun_counters (provider timeoutMs ttl : Nat) (rest : List RepAction) (h : ∀ a ∈ rest, a.isInit = false) :
    let actions := .init provider timeoutMs ttl :: rest
    let stats := (repRun actions).rep.stats
    let disabled := count findsDisabled repStep {} actions
    stats.lookups = stats.rejectedInput + stats.cacheHits + stats.saturated + stats.providerCalls + disabled ∧
      ((∀ c ∈ (repRun actions).calls, c.pc.flight = none) →
        disabled ≤ stats.errors ∧
        stats.providerCalls = stats.safe + stats.suspicious + stats.malicious + stats.timeouts + (stats.errors - disabled) ∧
        stats.unavailable = stats.rejectedInput + stats.saturated + stats.timeouts + stats.errors +
          (repRun actions).calls.countP Call.cachedUnavailable) := by
  have hinv := repRun_countersInv provider timeoutMs ttl h
  exact ⟨hinv.lookups, hinv.idle⟩

/-- Checks of a bad name, of a host whose provider fails, of that host again
and of one after the end, in a run without a check left under way. -/
theorem repRun_counters_outage :
    let actions : List RepAction := .init 1 1500 300 ::
      [.call (bytes "a b"), .act 0 (.enter 0), .call (bytes "x.test"), .act 1 (.enter 0), .act 1 (.prepare false),
        .act 1 (.settle 0), .call (bytes "y.test"), .act 2 (.enter 0), .act 2 (.prepare true), .act 2 (.start true),
        .act 2 .wake, .act 2 .drop, .act 2 .free, .act 2 (.settle 0), .call (bytes "y.test"), .act 3 (.enter 1),
        .shutdown, .call (bytes "z.test"), .act 4 (.enter 2)]
    let stats := (repRun actions).rep.stats
    stats.lookups = 5 ∧ stats.errors = 2 ∧ stats.unavailable = 5 ∧
      stats.providerCalls = stats.safe + stats.suspicious + stats.malicious + stats.timeouts +
        (stats.errors - count findsDisabled repStep {} actions) := by
  refine ⟨by decide +kernel, by decide +kernel, by decide +kernel, ?_⟩
  exact ((repRun_counters 1 1500 300 _ (by decide)).2 (by decide +kernel)).2.1

end SecureProxy
