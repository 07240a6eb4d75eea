/-
A check comes back, whatever its provider does.

Every step of a call takes it nearer to its end, so a call takes a bounded
number of steps however the threads are interleaved; and its caller needs none
but its own: a provider that never answers costs it the wait, and a result.
-/
import SecureProxy.ReputationCalls

namespace SecureProxy

open Bytes Machine

/-! ## How far a call is from its end -/

def CallerPc.stepsLeft : CallerPc → Nat
  | .entering _ => 7
  | .reserved _ => 6
  | .starting _ => 5
  | .waiting _ => 4
  | .releasing .. => 3
  | .dropped .. => 2
  | .settling .. => 1
  | .returned .. => 0

def HelperPc.stepsLeft : HelperPc → Nat
  | .unborn | .calling => 4
  | .answered => 3
  | .releasing => 2
  | .dropped _ => 1
  | .ended => 0

/-- A step of the thread that called, not of its helper. -/
def CallStep.ofCaller : CallStep → Bool
  | .enter _ | .prepare _ | .start _ | .wake | .drop | .free | .settle _ => true
  | .answer _ | .giveBack | .helperDrop | .helperFree => false

theorem Turn.stepsLeft {g : RepState} {since : Nat} {c : Call} {a : CallStep} {m : Moved} {host : List Byte}
    (ht : Turn g since c a m) (h : CallInv host c) :
    m.call.pc.stepsLeft + a.ofCaller.toNat ≤ c.pc.stepsLeft ∧
      m.call.helper.stepsLeft + (!a.ofCaller).toNat ≤ c.helper.stepsLeft := by
  cases ht with
  | @start r j helper =>
    have hunborn : helper = .unborn := h.alone rfl
    subst hunborn
    exact ⟨le_rfl, le_rfl⟩
  | prepareFails => exact ⟨by simp [CallerPc.stepsLeft, CallStep.ofCaller], le_rfl⟩
  | startFails => exact ⟨by simp [CallerPc.stepsLeft, CallStep.ofCaller], le_rfl⟩
  | done => exact ⟨by simp [CallerPc.stepsLeft, CallStep.ofCaller], le_rfl⟩
  | _ => exact ⟨le_rfl, le_rfl⟩

/-- The caller's steps, or the helper's, that are left to call `i`. -/
def callerLeft (s : RepSystem) (i : Nat) : Nat := (s.calls[i]?.map fun c => c.pc.stepsLeft).getD 7

def helperLeft (s : RepSystem) (i : Nat) : Nat := (s.calls[i]?.map fun c => c.helper.stepsLeft).getD 4

/-- The action is a step that call `i` takes, by its caller or by its helper. -/
def took (byCaller : Bool) (i : Nat) (s : RepSystem) : RepAction → Bool
  | .act j a => j == i && a.ofCaller == byCaller && (s.calls[i]?.bind fun c => callStep s.rep s.puts.length c a).isSome
  | .init .. | .shutdown | .call _ => false

theorem left_push {s : RepSystem} {host : List Byte} (i : Nat) :
    callerLeft { s with calls := s.calls ++ [{ pc := .entering host }] } i = callerLeft s i ∧
      helperLeft { s with calls := s.calls ++ [{ pc := .entering host }] } i = helperLeft s i := by
  simp only [callerLeft, helperLeft]
  rcases Nat.lt_trichotomy i s.calls.length with hi | rfl | hi
  · rw [List.getElem?_append_left hi]
    exact ⟨rfl, rfl⟩
  · rw [List.getElem?_concat_length, List.getElem?_eq_none le_rfl]
    exact ⟨rfl, rfl⟩
  · rw [List.getElem?_eq_none (by simp; omega), List.getElem?_eq_none (by omega)]
    exact ⟨rfl, rfl⟩

theorem repStep_left (actions : List RepAction) (a : RepAction) (i : Nat) :
    let s := repRun actions
    callerLeft (repStep s a).1 i + (took true i s a).toNat ≤ callerLeft s i ∧
      helperLeft (repStep s a).1 i + (took false i s a).toNat ≤ helperLeft s i := by
  intro s
  cases a with
  | init provider timeoutMs ttl => exact ⟨le_rfl, le_rfl⟩
  | shutdown => exact ⟨le_rfl, le_rfl⟩
  | call host =>
    obtain ⟨hcaller, hhelper⟩ := @left_push s host i
    exact ⟨hcaller.le, hhelper.le⟩
  | act j a =>
    by_cases hij : j = i
    · subst hij
      cases hstep : s.calls[j]?.bind fun c => callStep s.rep s.puts.length c a with
      | none =>
        have htook : ∀ byCaller, took byCaller j s (.act j a) = false := by simp [took, hstep]
        rw [htook, htook, show repStep s (.act j a) = (s, none) by simp [repStep, hstep]]
        exact ⟨le_rfl, le_rfl⟩
      | some m =>
        obtain ⟨c, hc, hm⟩ := Option.bind_eq_some_iff.1 hstep
        obtain ⟨host, -, hinv⟩ := repRun_callInv actions j c hc
        obtain ⟨hcaller, hhelper⟩ := (callStep_turn hm).stepsLeft hinv
        have hcalls : (repStep s (.act j a)).1.calls = s.calls.set j m.call := by simp only [repStep, hstep]
        have hset : (repStep s (.act j a)).1.calls[j]? = some m.call := by
          rw [hcalls, List.getElem?_set_self (List.getElem?_eq_some_iff.1 hc).1]
        have htook : ∀ byCaller, took byCaller j s (.act j a) = (a.ofCaller == byCaller) := by
          intro byCaller
          simp only [took, hstep, beq_self_eq_true, Bool.true_and, Option.isSome_some, Bool.and_true]
        simp only [callerLeft, helperLeft, hset, hc, htook, Option.map_some, Option.getD_some]
        cases ha : a.ofCaller <;> simp only [ha] at hcaller hhelper ⊢
        · exact ⟨hcaller, hhelper⟩
        · exact ⟨hcaller, hhelper⟩
    · have hsame : (repStep s (.act j a)).1.calls[i]? = s.calls[i]? := by
        rcases repStep_act s j a with heq | ⟨c, m, -, -, heq⟩
        · rw [heq]
        · rw [heq]
          exact List.getElem?_set_ne hij
      have htook : ∀ byCaller, took byCaller i s (.act j a) = false := by simp [took, hij]
      simp only [callerLeft, helperLeft, hsame, htook]
      exact ⟨le_rfl, le_rfl⟩

/-- A call takes no more than seven steps itself and its helper no more than
four. -/
theorem count_took_le (actions : List RepAction) (i : Nat) :
    count (took true i) repStep {} actions + callerLeft (repRun actions) i ≤ 7 ∧
      count (took false i) repStep {} actions + helperLeft (repRun actions) i ≤ 4 := by
  induction actions using List.reverseRecOn with
  | nil => exact ⟨le_rfl, le_rfl⟩
  | append_singleton actions a ih =>
    obtain ⟨hcaller, hhelper⟩ := repStep_left actions a i
    rw [count_append, count_append, repRun_snoc]
    simp only [count, Nat.add_zero]
    have hrun : run repStep {} actions = repRun actions := rfl
    rw [hrun]
    exact ⟨by omega, by omega⟩

/-! ## The caller by itself -/

def CallerPc.needsJob : CallerPc → Bool
  | .starting _ | .waiting _ | .releasing .. | .dropped .. => true
  | .entering _ | .reserved _ | .settling .. | .returned .. => false

theorem Turn.hasJob {g : RepState} {since : Nat} {c : Call} {a : CallStep} {m : Moved} (ht : Turn g since c a m)
    (h : c.pc.needsJob = true → ∃ j, c.job = some j) : m.call.pc.needsJob = true → ∃ j, m.call.job = some j := by
  intro hneeds
  cases ht with
  | done => cases hneeds
  | reserve => cases hneeds
  | prepareFails => cases hneeds
  | free => cases hneeds
  | undo => cases hneeds
  | settle => cases hneeds
  | giveBack => exact h hneeds
  | _ => exact ⟨_, rfl⟩

/-- A caller that has not returned has a step that it can take. -/
theorem caller_goes_on {c : Call} (hjob : c.pc.needsJob = true → ∃ j, c.job = some j) (hleft : c.pc.stepsLeft ≠ 0)
    (g : RepState) (since : Nat) : ∃ a m, a.ofCaller = true ∧ callStep g since c a = some m := by
  obtain ⟨pc, job, helper⟩ := c
  cases pc with
  | entering host =>
    cases henter : checkEnter g host 0 with
    | mk g' entered =>
      cases entered with
      | done res => exact ⟨.enter 0, _, rfl, by simp only [callStep, enterStep, henter]; rfl⟩
      | reserved norm provider timeoutMs ttl =>
        exact ⟨.enter 0, _, rfl, by simp only [callStep, enterStep, henter]; rfl⟩
  | reserved r => exact ⟨.prepare false, _, rfl, rfl⟩
  | starting r =>
    obtain ⟨j, rfl⟩ : ∃ j, job = some j := hjob rfl
    exact ⟨.start false, _, rfl, rfl⟩
  | waiting r =>
    obtain ⟨j, rfl⟩ : ∃ j, job = some j := hjob rfl
    exact ⟨.wake, _, rfl, rfl⟩
  | releasing r next =>
    obtain ⟨j, rfl⟩ : ∃ j, job = some j := hjob rfl
    exact ⟨.drop, _, rfl, rfl⟩
  | dropped r next remaining =>
    obtain ⟨j, rfl⟩ : ∃ j, job = some j := hjob rfl
    exact ⟨.free, _, rfl, rfl⟩
  | settling r next => cases next <;> exact ⟨.settle 0, _, rfl, rfl⟩
  | returned r res => exact absurd rfl hleft

theorem caller_returns (n : Nat) : ∀ (actions : List RepAction) (i : Nat) (c : Call), (repRun actions).calls[i]? = some c →
    c.pc.stepsLeft ≤ n → ∃ own : List CallStep, own.length ≤ n ∧ (∀ a ∈ own, a.ofCaller = true) ∧
      ∃ c' r res, (repRun (actions ++ own.map (.act i))).calls[i]? = some c' ∧ c'.pc = .returned r res := by
  have hover : ∀ c : Call, c.pc.stepsLeft = 0 → ∃ r res, c.pc = .returned r res := by
    intro c hleft
    cases hpc : c.pc with
    | returned r res => exact ⟨r, res, rfl⟩
    | _ => rw [hpc] at hleft; cases hleft
  have hhere : ∀ (m : Nat) (actions : List RepAction) (i : Nat) (c : Call), (repRun actions).calls[i]? = some c →
      c.pc.stepsLeft = 0 → ∃ own : List CallStep, own.length ≤ m ∧ (∀ a ∈ own, a.ofCaller = true) ∧
        ∃ c' r res, (repRun (actions ++ own.map (.act i))).calls[i]? = some c' ∧ c'.pc = .returned r res := by
    intro m actions i c hc hleft
    obtain ⟨r, res, hpc⟩ := hover c hleft
    exact ⟨[], Nat.zero_le _, nofun, c, r, res, by simpa using hc, hpc⟩
  induction n with
  | zero => exact fun actions i c hc hleft => hhere 0 actions i c hc (Nat.le_zero.1 hleft)
  | succ n ih =>
    intro actions i c hc hleft
    by_cases hzero : c.pc.stepsLeft = 0
    · exact hhere (n + 1) actions i c hc hzero
    · obtain ⟨host, -, hinv, hjob⟩ := calls_invariant (P := fun host c => CallInv host c ∧
          (c.pc.needsJob = true → ∃ j, c.job = some j)) (fun host => ⟨.start host, nofun⟩)
          (fun ht h => ⟨ht.callInv h.1, ht.hasJob h.2⟩) actions i c hc
      obtain ⟨a, m, ha, hm⟩ := caller_goes_on hjob hzero (repRun actions).rep (repRun actions).puts.length
      have hstep : (repRun (actions ++ [.act i a])).calls[i]? = some m.call := by
        rw [repRun_snoc]
        simp only [repStep, hc, Option.bind_some, hm]
        exact List.getElem?_set_self (List.getElem?_eq_some_iff.1 hc).1
      have hless := ((callStep_turn hm).stepsLeft hinv).1
      rw [ha] at hless
      have hless : m.call.pc.stepsLeft + 1 ≤ c.pc.stepsLeft := hless
      obtain ⟨own, hlen, hcaller, c', r, res, hc', hpc⟩ := ih _ i m.call hstep (by omega)
      refine ⟨a :: own, by simpa using hlen, List.forall_mem_cons.2 ⟨ha, hcaller⟩, c', r, res, ?_, hpc⟩
      rw [List.map_cons, List.append_cons]
      exact hc'

/-! ## A provider that does not answer -/

/-- Nothing the provider might have said has come to the caller. -/
structure Unanswered (c : Call) : Prop where
  job : ∀ j, c.job = some j → j.done = false
  observed : c.pc.observed = none
  result : ∀ r res, c.pc = .returned (some r) res → res.verdict = .unavailable

theorem observed_next (r : Reservation) (next : AfterRelease) (left : Int) :
    (CallerPc.dropped r next left).observed = (CallerPc.releasing r next).observed ∧
      (CallerPc.settling r next).observed = (CallerPc.releasing r next).observed := by
  cases next with
  | undo => exact ⟨rfl, rfl⟩
  | finish answer => cases answer <;> exact ⟨rfl, rfl⟩

theorem Turn.unanswered {g : RepState} {since : Nat} {c : Call} {a : CallStep} {m : Moved} (ht : Turn g since c a m)
    (ha : ∀ v, a ≠ .answer v) (h : Unanswered c) : Unanswered m.call := by
  obtain ⟨hjob, hobs, hres⟩ := h
  cases ht with
  | done => exact ⟨hjob, rfl, nofun⟩
  | reserve => exact ⟨hjob, rfl, nofun⟩
  | prepare => exact ⟨fun j hj => by cases hj; rfl, rfl, nofun⟩
  | prepareFails => exact ⟨hjob, rfl, nofun⟩
  | start => exact ⟨hjob, rfl, nofun⟩
  | @startFails r j helper => exact ⟨fun j' hj => by cases hj; exact hjob j rfl, rfl, nofun⟩
  | @wake r j helper =>
    have hdone := hjob j rfl
    refine ⟨hjob, ?_, nofun⟩
    rw [hdone]
    rfl
  | @drop r next j helper =>
    exact ⟨fun j' hj => by cases hj; exact hjob j rfl, (observed_next r next _).1.trans hobs, nofun⟩
  | @free r next left j helper =>
    obtain ⟨hdropped, hsettling⟩ := observed_next r next left
    refine ⟨fun j' hj => ?_, hsettling.trans (hdropped.symm.trans hobs), nofun⟩
    cases hj
    rw [Job.freeIf_eq]
    exact hjob j rfl
  | undo => exact ⟨hjob, rfl, fun r res hpc => by cases hpc; rfl⟩
  | @settle r answer job helper now =>
    refine ⟨hjob, rfl, fun r' res hpc => ?_⟩
    cases hpc
    cases answer with
    | none => rfl
    | some v => cases hobs
  | answer => exact absurd rfl (ha _)
  | giveBack => exact ⟨hjob, hobs, hres⟩
  | @helperDrop pc j => exact ⟨fun j' hj => by cases hj; exact hjob j rfl, hobs, hres⟩
  | @helperFree pc j left =>
    refine ⟨fun j' hj => ?_, hobs, hres⟩
    cases hj
    rw [Job.freeIf_eq]
    exact hjob j rfl

theorem repRun_unanswered {i : Nat} (actions : List RepAction) (hsilent : ∀ v, .act i (.answer v) ∉ actions) :
    ∀ c, (repRun actions).calls[i]? = some c → Unanswered c := by
  induction actions using List.reverseRecOn with
  | nil => exact fun c hc => by cases hc
  | append_singleton actions a ih =>
    have ih := ih fun v hm => hsilent v (List.mem_append_left _ hm)
    intro c hc
    rcases calls_snoc hc with hold | ⟨host, rfl, rfl, rfl⟩ | ⟨act, c', m, rfl, hc', ht, -, rfl⟩
    · exact ih c hold
    · exact ⟨nofun, rfl, nofun⟩
    · refine ht.unanswered (fun v hv => ?_) (ih c' hc')
      rw [hv] at hsilent
      exact hsilent v (List.mem_append_right _ (List.mem_singleton_self _))

/-- **A check always comes back.** In any interleaving of calls, helpers,
providers and re-initialisations a call takes at most seven steps of its own
and four of its helper; from wherever it is its caller can finish alone, within
seven steps; and a provider that has not answered it cannot have brought about
any verdict. -/
theorem reputation_returns (actions : List RepAction) (i : Nat) (c : Call) (hc : (repRun actions).calls[i]? = some c) :
    (count (took true i) repStep {} actions ≤ 7 ∧ count (took false i) repStep {} actions ≤ 4) ∧
    (∃ own : List CallStep, own.length ≤ 7 ∧ (∀ a ∈ own, a.ofCaller = true) ∧
      ∃ c' r res, (repRun (actions ++ own.map (.act i))).calls[i]? = some c' ∧ c'.pc = .returned r res) ∧
    ((∀ v, .act i (.answer v) ∉ actions) → ∀ r res, c.pc = .returned (some r) res → res.verdict = .unavailable) := by
  obtain ⟨hcaller, hhelper⟩ := count_took_le actions i
  have hleft : c.pc.stepsLeft ≤ 7 := by
    cases c.pc <;> simp [CallerPc.stepsLeft]
  exact ⟨⟨by omega, by omega⟩, caller_returns 7 actions i c hc hleft,
    fun hsilent => (repRun_unanswered actions hsilent c hc).result⟩

/-- The provider is asked and says nothing. -/
theorem reputation_returns_silent :
    let actions := firstCheck (bytes "evil.example") ++ [.act 0 .wake, .act 0 .drop, .act 0 .free, .act 0 (.settle 101)]
    ∃ c r, (repRun actions).calls[0]? = some c ∧ c.pc = .returned (some r) ⟨.unavailable, .timeout⟩ ∧
      count (took true 0) repStep {} actions = 7 ∧
      (count (took true 0) repStep {} actions ≤ 7 ∧ count (took false 0) repStep {} actions ≤ 4) ∧
      (∃ own : List CallStep, own.length ≤ 7 ∧ (∀ a ∈ own, a.ofCaller = true) ∧
        ∃ c' r res, (repRun (actions ++ own.map (.act 0))).calls[0]? = some c' ∧ c'.pc = .returned r res) ∧
      ((∀ v, .act 0 (.answer v) ∉ actions) → ∀ r res, c.pc = .returned (some r) res → res.verdict = .unavailable) := by
  intro actions
  have hcall : ((repRun actions).calls[0]?.map Call.pc) = some (.returned
      (some ⟨bytes "evil.example", some 1, 1500, 300, 100, 0⟩) ⟨.unavailable, .timeout⟩) := by decide +kernel
  obtain ⟨c, hc, hpc⟩ := Option.map_eq_some_iff.1 hcall
  exact ⟨c, _, hc, hpc, by decide +kernel, reputation_returns actions 0 c hc⟩

end SecureProxy
