/-
The calls of the reputation module and what they own: the reservations counted
by `g_inflight`, and the job a caller shares with its helper thread.

A reservation is given back once, by the helper after its provider call or by
the caller that could not start one. A job has as many references as it has
owners, so the one that drops the last frees it.
-/
import SecureProxy.Lib.Slots
import SecureProxy.ReputationSteps

namespace SecureProxy

open Bytes Machine Slots

/-! ## What a call holds -/

/-- Between the reservation and the start of the helper, or its undoing. -/
def CallerPc.reserving : CallerPc → Bool
  | .reserved _ | .starting _ | .releasing _ .undo | .dropped _ .undo _ | .settling _ .undo => true
  | _ => false

/-- The provider is being called, or its slot not yet given back. -/
def HelperPc.busy : HelperPc → Bool
  | .calling | .answered => true
  | _ => false

/-- The call has a reservation that was not yet given back. -/
def Call.holds (c : Call) : Bool := c.helper.busy || c.pc.reserving

/-- The caller's references to the job. Until the helper runs, its own is in
the caller's hands. -/
def CallerPc.refs : CallerPc → Nat
  | .starting _ => 2
  | .waiting _ | .releasing .. => 1
  | _ => 0

def HelperPc.refs : HelperPc → Nat
  | .calling | .answered | .releasing => 1
  | _ => 0

/-- The caller has dropped the last reference and is to free the job. -/
def CallerPc.freeing : CallerPc → Nat
  | .dropped _ _ left => if left = 0 then 1 else 0
  | _ => 0

def HelperPc.freeing : HelperPc → Nat
  | .dropped left => if left = 0 then 1 else 0
  | _ => 0

/-- The job of a call has the references its owners have, and is freed once
when there are none left. -/
structure JobInv (c : Call) (j : Job) : Prop where
  refs : j.refs = c.pc.refs + c.helper.refs
  freed : j.freed + c.pc.freeing + c.helper.freeing = if j.refs = 0 then 1 else 0

/-- The job is not there yet. -/
def CallerPc.early : CallerPc → Bool
  | .entering _ | .reserved _ => true
  | _ => false

/-- What holds of a call about `host`. -/
structure CallInv (host : List Byte) (c : Call) : Prop where
  entering : ∀ h, c.pc = .entering h → h = host ∧ c.helper = .unborn
  alone : c.pc.reserving = true → c.helper = .unborn
  norm : ∀ r, c.pc.flight = some r → normaliseHost host = some r.norm
  job : ∀ j, c.job = some j → c.pc.early = false ∧ normaliseHost host = some j.host ∧ JobInv c j

/-- While there are references, nobody has freed the job or is about to. -/
theorem JobInv.live {c : Call} {j : Job} (h : JobInv c j) (hrefs : 0 < c.pc.refs + c.helper.refs) :
    j.freed = 0 ∧ c.pc.freeing = 0 ∧ c.helper.freeing = 0 := by
  have h1 := h.refs
  have h2 := h.freed
  rw [if_neg (by omega)] at h2
  omega

/-- A reference is dropped, the last one or not. -/
theorem JobInv.drop {c : Call} {j : Job} (h : JobInv c j) {pc : CallerPc} {helper : HelperPc}
    (hrefs : pc.refs + helper.refs + 1 = c.pc.refs + c.helper.refs)
    (hafter : pc.freeing + helper.freeing = if j.drop.refs = 0 then 1 else 0) :
    JobInv ⟨pc, some j.drop, helper⟩ j.drop := by
  have h1 := h.refs
  obtain ⟨hfreed, -, -⟩ := h.live (by omega)
  have hsame : j.drop.freed = j.freed := rfl
  refine ⟨?_, ?_⟩
  · simp only [Job.drop]
    omega
  · simp only [hsame, hfreed, ← hafter]
    omega

theorem Job.freeIf_eq (j : Job) (left : Int) :
    j.freeIf left = { j with freed := j.freed + if left = 0 then 1 else 0 } := by
  unfold Job.freeIf
  split
  · rfl
  · rfl

/-- The job is freed by the one who dropped the last reference. -/
theorem JobInv.free {c : Call} {j : Job} (h : JobInv c j) {pc : CallerPc} {helper : HelperPc} {left : Int}
    (hrefs : pc.refs + helper.refs = c.pc.refs + c.helper.refs)
    (hfreeing : pc.freeing + helper.freeing + (if left = 0 then 1 else 0) = c.pc.freeing + c.helper.freeing) :
    JobInv ⟨pc, some (j.freeIf left), helper⟩ (j.freeIf left) := by
  have h1 := h.refs
  have h2 := h.freed
  rw [Job.freeIf_eq]
  refine ⟨?_, ?_⟩
  · simp only
    omega
  · simp only [← h2]
    omega

/-- A step that leaves the references alone. -/
theorem JobInv.move {c c' : Call} {j j' : Job} (h : JobInv c j) (hsame : j'.refs = j.refs ∧ j'.freed = j.freed)
    (hrefs : c'.pc.refs + c'.helper.refs = c.pc.refs + c.helper.refs)
    (hfreeing : c'.pc.freeing + c'.helper.freeing = c.pc.freeing + c.helper.freeing) : JobInv c' j' := by
  have h1 := h.refs
  have h2 := h.freed
  refine ⟨?_, ?_⟩
  · rw [hsame.1]
    omega
  · rw [hsame.1, hsame.2, ← h2]
    omega

/-- A step of the helper leaves the caller where it is. -/
theorem CallInv.helper {host : List Byte} {c : Call} (h : CallInv host c) (hborn : c.helper ≠ .unborn) {job : Option Job}
    {helper : HelperPc} (hjob : ∀ j, job = some j → c.pc.early = false ∧ normaliseHost host = some j.host ∧
      JobInv ⟨c.pc, job, helper⟩ j) : CallInv host ⟨c.pc, job, helper⟩ :=
  ⟨fun _ h' => absurd (h.entering _ h').2 hborn, fun h' => absurd (h.alone h') hborn, h.norm, hjob⟩

/-- A step of the caller that keeps the reservation and leaves it with a job. -/
theorem CallInv.caller {host : List Byte} {c : Call} (h : CallInv host c) {r : Reservation} (hr : c.pc.flight = some r)
    {pc : CallerPc} {j : Job} {helper : HelperPc} (hpc : pc.flight = some r ∧ pc.early = false)
    (halone : pc.reserving = true → helper = .unborn) (hnorm : normaliseHost host = some j.host)
    (hjob : JobInv ⟨pc, some j, helper⟩ j) : CallInv host ⟨pc, some j, helper⟩ := by
  refine ⟨fun host' hentering => ?_, halone, fun r' hr' => ?_, fun j' hj' => ?_⟩
  · have hnone := hpc.1
    simp only at hentering
    rw [hentering] at hnone
    cases hnone
  · obtain rfl := Option.some.inj (hpc.1.symm.trans hr')
    exact h.norm r hr
  · cases hj'
    exact ⟨hpc.2, hnorm, hjob⟩

theorem CallInv.start (host : List Byte) : CallInv host { pc := .entering host } :=
  ⟨fun _ h => ⟨(CallerPc.entering.inj h).symm, rfl⟩, fun _ => rfl, fun _ h => (nomatch h), fun _ h => (nomatch h)⟩

theorem Turn.callInv {g : RepState} {since : Nat} {c : Call} {a : CallStep} {m : Moved} {host : List Byte}
    (ht : Turn g since c a m) (h : CallInv host c) : CallInv host m.call := by
  cases ht with
  | done _ => exact ⟨fun _ h' => (nomatch h'), fun h' => (nomatch h'), fun _ h' => (nomatch h'), fun j hj => (nomatch (h.job j hj).1)⟩
  | reserve henters =>
    obtain ⟨rfl, rfl⟩ := h.entering _ rfl
    refine ⟨fun _ h' => (nomatch h'), fun _ => rfl, fun r hr => ?_, fun j hj => (nomatch (h.job j hj).1)⟩
    cases henters with
    | missed hnorm _ _ =>
      cases hr
      exact hnorm
  | @prepare r job helper =>
    obtain rfl : helper = .unborn := h.alone rfl
    exact h.caller rfl ⟨rfl, rfl⟩ (fun _ => rfl) (h.norm r rfl) ⟨rfl, rfl⟩
  | prepareFails =>
    exact ⟨fun _ h' => (nomatch h'), fun _ => h.alone rfl, fun _ hr => h.norm _ hr, fun j hj => (nomatch (h.job j hj).1)⟩
  | @start r j helper =>
    obtain rfl : helper = .unborn := h.alone rfl
    obtain ⟨-, hnorm, hj⟩ := h.job j rfl
    exact h.caller rfl ⟨rfl, rfl⟩ (fun h' => (nomatch h')) hnorm (hj.move ⟨rfl, rfl⟩ rfl rfl)
  | @startFails r j helper =>
    obtain rfl : helper = .unborn := h.alone rfl
    obtain ⟨-, hnorm, hj⟩ := h.job j rfl
    exact h.caller rfl ⟨rfl, rfl⟩ (fun _ => rfl) hnorm ⟨rfl, (hj.live (by simp [CallerPc.refs])).1⟩
  | @wake r j helper =>
    obtain ⟨-, hnorm, hj⟩ := h.job j rfl
    exact h.caller rfl ⟨rfl, rfl⟩ (fun h' => (nomatch h')) hnorm (hj.move ⟨rfl, rfl⟩ rfl rfl)
  | @drop r next j helper =>
    obtain ⟨-, hnorm, hj⟩ := h.job j rfl
    obtain ⟨-, -, hhelper⟩ := hj.live (by simp [CallerPc.refs])
    simp only at hhelper
    refine h.caller rfl ⟨rfl, rfl⟩ (fun h' => h.alone ?_) hnorm (hj.drop ?_ ?_)
    · cases next with
      | undo => rfl
      | finish answer => cases h'
    · simp [CallerPc.refs, Nat.add_comm]
    · simp [CallerPc.freeing, hhelper]
  | @free r next left j helper =>
    obtain ⟨-, hnorm, hj⟩ := h.job j rfl
    refine h.caller rfl ⟨rfl, rfl⟩ (fun h' => h.alone ?_) (by rwa [Job.freeIf_eq]) (hj.free rfl ?_)
    · cases next with
      | undo => rfl
      | finish answer => cases h'
    · simp [CallerPc.freeing, Nat.add_comm]
  | @undo r job helper now =>
    refine ⟨fun _ h' => (nomatch h'), fun h' => (nomatch h'), fun _ h' => (nomatch h'), fun j hj => ?_⟩
    obtain ⟨-, hnorm, hinv⟩ := h.job j hj
    exact ⟨rfl, hnorm, hinv.move ⟨rfl, rfl⟩ rfl rfl⟩
  | settle =>
    refine ⟨fun _ h' => (nomatch h'), fun h' => (nomatch h'), fun _ h' => (nomatch h'), fun j hj => ?_⟩
    obtain ⟨-, hnorm, hinv⟩ := h.job j hj
    exact ⟨rfl, hnorm, hinv.move ⟨rfl, rfl⟩ rfl rfl⟩
  | @answer pc j v =>
    obtain ⟨hearly, hnorm, hj⟩ := h.job j rfl
    refine h.helper (by simp) fun j' hj' => ?_
    cases hj'
    exact ⟨hearly, hnorm, hj.move ⟨rfl, rfl⟩ rfl rfl⟩
  | giveBack =>
    refine h.helper (by simp) fun j hj => ?_
    obtain ⟨hearly, hnorm, hinv⟩ := h.job j hj
    exact ⟨hearly, hnorm, hinv.move ⟨rfl, rfl⟩ rfl rfl⟩
  | @helperDrop pc j =>
    obtain ⟨hearly, hnorm, hj⟩ := h.job j rfl
    refine h.helper (by simp) fun j' hj' => ?_
    cases hj'
    obtain ⟨-, hcaller, -⟩ := hj.live (by simp [HelperPc.refs])
    simp only at hcaller
    refine ⟨hearly, hnorm, hj.drop ?_ ?_⟩
    · simp [HelperPc.refs]
    · simp [HelperPc.freeing, hcaller]
  | @helperFree pc j left =>
    obtain ⟨hearly, hnorm, hj⟩ := h.job j rfl
    refine h.helper (by simp) fun j' hj' => ?_
    cases hj'
    refine ⟨hearly, by rwa [Job.freeIf_eq], hj.free rfl ?_⟩
    simp [HelperPc.freeing]

theorem repRun_callInv (actions : List RepAction) : ∀ (i : Nat) c, (repRun actions).calls[i]? = some c →
    ∃ host, (callHosts actions)[i]? = some host ∧ CallInv host c :=
  calls_invariant CallInv.start Turn.callInv actions

/-! ## The reservations -/

theorem cachePut_inflight (g : RepState) (host : List Byte) (v : ReputationVerdict) (ttl : Nat) (now : Int) :
    (cachePut g host v ttl now).inflight = g.inflight := by
  unfold cachePut
  split
  · rfl
  · split <;> rfl

theorem checkFinish_inflight (g : RepState) (norm : List Byte) (res : ReputationResult) (ttl : Nat) (now : Int) :
    (checkFinish g norm res ttl now).inflight = g.inflight := by
  unfold checkFinish
  dsimp only
  split
  · exact cachePut_inflight ..
  · rfl

/-- The reservations of a list of calls. -/
def reservations (calls : List Call) : Nat := calls.countP Call.holds

/-- A turn gives the count what it gives the call: a reservation, or one given
back, or nothing. -/
theorem Turn.inflight {g : RepState} {since : Nat} {c : Call} {a : CallStep} {m : Moved} {host : List Byte}
    (ht : Turn g since c a m) (h : CallInv host c) (hpos : c.holds = true → 0 < g.inflight) :
    m.rep.inflight + c.holds.toNat = g.inflight + m.call.holds.toNat ∧
      (m.rep.inflight ≤ g.inflight ∨ m.rep.inflight ≤ reputationMaxInflight) := by
  cases ht with
  | @done host job helper now g' res henters =>
    obtain ⟨-, rfl⟩ := h.entering _ rfl
    cases henters <;> exact ⟨rfl, .inl (Nat.le_refl _)⟩
  | reserve henters =>
    obtain ⟨-, rfl⟩ := h.entering _ rfl
    cases henters with
    | missed _ _ hlt => exact ⟨rfl, .inr hlt⟩
  | prepare => exact ⟨rfl, .inl (Nat.le_refl _)⟩
  | prepareFails => exact ⟨rfl, .inl (Nat.le_refl _)⟩
  | @start r j helper =>
    obtain rfl : helper = .unborn := h.alone rfl
    exact ⟨rfl, .inl (Nat.le_refl _)⟩
  | startFails => exact ⟨rfl, .inl (Nat.le_refl _)⟩
  | wake => exact ⟨rfl, .inl (Nat.le_refl _)⟩
  | @drop r next j helper => cases next <;> exact ⟨rfl, .inl (Nat.le_refl _)⟩
  | @free r next left j helper => cases next <;> exact ⟨rfl, .inl (Nat.le_refl _)⟩
  | @undo r job helper now =>
    obtain rfl : helper = .unborn := h.alone rfl
    have hlt : 0 < g.inflight := hpos rfl
    simp only [checkUndo, releaseInflight, if_neg (Nat.pos_iff_ne_zero.1 hlt)]
    exact ⟨Nat.sub_add_cancel hlt, .inl (Nat.sub_le _ _)⟩
  | settle =>
    rw [checkFinish_inflight]
    exact ⟨rfl, .inl (Nat.le_refl _)⟩
  | answer => exact ⟨rfl, .inl (Nat.le_refl _)⟩
  | @giveBack pc job =>
    have hlt : 0 < g.inflight := hpos rfl
    have hreserving : pc.reserving = false := by
      rw [Bool.eq_false_iff]
      exact fun hc => nomatch h.alone hc
    simp only [releaseInflight, if_neg (Nat.pos_iff_ne_zero.1 hlt), Call.holds, HelperPc.busy, hreserving]
    exact ⟨Nat.sub_add_cancel hlt, .inl (Nat.sub_le _ _)⟩
  | helperDrop => exact ⟨rfl, .inl (Nat.le_refl _)⟩
  | helperFree => exact ⟨rfl, .inl (Nat.le_refl _)⟩

/-- What holds of the count. -/
structure InflightInv (s : RepSystem) : Prop where
  count : s.rep.inflight = reservations s.calls
  bound : s.rep.inflight ≤ reputationMaxInflight

theorem repRun_inflightInv (actions : List RepAction) : InflightInv (repRun actions) := by
  induction actions using List.reverseRecOn with
  | nil => exact ⟨rfl, Nat.zero_le _⟩
  | append_singleton actions a ih =>
    rw [repRun_snoc]
    cases a with
    | init provider timeoutMs ttl => exact ⟨ih.count, ih.bound⟩
    | shutdown => exact ⟨ih.count, ih.bound⟩
    | call host =>
      refine ⟨?_, ih.bound⟩
      show _ = reservations ((repRun actions).calls ++ [_])
      rw [reservations, List.countP_append]
      exact ih.count
    | act i a =>
      rcases repStep_act (repRun actions) i a with heq | ⟨c, m, hc, hm, heq⟩
      · rw [heq]
        exact ih
      · rw [heq]
        obtain ⟨host, -, hinv⟩ := repRun_callInv actions i c hc
        have hcount := countP_set hc m.call Call.holds
        have hholds : c.holds = true → 0 < (repRun actions).rep.inflight := by
          intro hh
          rw [ih.count]
          exact List.countP_pos_iff.2 ⟨c, List.mem_of_getElem? hc, hh⟩
        obtain ⟨hmoved, hbound⟩ := hm.inflight hinv hholds
        have h1 := ih.count
        have h2 := ih.bound
        refine ⟨?_, ?_⟩
        · show m.rep.inflight = reservations ((repRun actions).calls.set i m.call)
          unfold reservations at h1 ⊢
          omega
        · show m.rep.inflight ≤ reputationMaxInflight
          omega

/-- No step moves the count by more than one, so it does not wrap. -/
theorem repStep_inflight (actions : List RepAction) (a : RepAction) :
    (repStep (repRun actions) a).1.rep.inflight ≤ (repRun actions).rep.inflight + 1 ∧
      (repRun actions).rep.inflight ≤ (repStep (repRun actions) a).1.rep.inflight + 1 := by
  cases a with
  | init provider timeoutMs ttl => exact ⟨Nat.le_succ _, Nat.le_succ _⟩
  | shutdown => exact ⟨Nat.le_succ _, Nat.le_succ _⟩
  | call host => exact ⟨Nat.le_succ _, Nat.le_succ _⟩
  | act i a =>
    rcases repStep_act (repRun actions) i a with heq | ⟨c, m, hc, hm, heq⟩
    · rw [heq]
      exact ⟨Nat.le_succ _, Nat.le_succ _⟩
    · rw [heq]
      obtain ⟨host, -, hinv⟩ := repRun_callInv actions i c hc
      have hholds : c.holds = true → 0 < (repRun actions).rep.inflight := by
        intro hh
        rw [(repRun_inflightInv actions).count]
        exact List.countP_pos_iff.2 ⟨c, List.mem_of_getElem? hc, hh⟩
      obtain ⟨hmoved, -⟩ := hm.inflight hinv hholds
      have h1 := Bool.toNat_le c.holds
      have h2 := Bool.toNat_le m.call.holds
      show m.rep.inflight ≤ _ ∧ _ ≤ m.rep.inflight + 1
      omega

/-- **The count is that of the reservations not yet given back**, and never
above the bound, in every run: so are the provider calls under way. With no
helper running and no check about to start one or to undo it, it is zero. -/
theorem repRun_inflight (actions : List RepAction) :
    let s := repRun actions
    s.rep.inflight = reservations s.calls ∧ s.rep.inflight ≤ reputationMaxInflight ∧
      (s.calls.countP fun c => c.helper = .calling) ≤ reputationMaxInflight ∧
      (∀ a, (repStep s a).1.rep.inflight ≤ s.rep.inflight + 1 ∧ s.rep.inflight ≤ (repStep s a).1.rep.inflight + 1) ∧
      ((∀ c ∈ s.calls, (c.helper = .unborn ∨ c.helper = .ended) ∧ c.pc.reserving = false) → s.rep.inflight = 0) := by
  intro s
  obtain ⟨hcount, hbound⟩ := repRun_inflightInv actions
  refine ⟨hcount, hbound, ?_, repStep_inflight actions, fun hidle => ?_⟩
  · have hle : (s.calls.countP fun c => c.helper = .calling) ≤ reservations s.calls := by
      refine List.countP_mono_left fun c _ hcalling => ?_
      have hhelper : c.helper = .calling := by simpa using hcalling
      simp [Call.holds, hhelper, HelperPc.busy]
    exact hle.trans (hcount ▸ hbound)
  · rw [show s.rep.inflight = _ from hcount]
    refine List.countP_eq_zero.2 fun c hc => ?_
    obtain ⟨hhelper, hreserving⟩ := hidle c hc
    rcases hhelper with hhelper | hhelper <;> simp [Call.holds, hhelper, HelperPc.busy, hreserving]

/-! ## The job -/

/-- The caller has yet to touch the job; its last touch may be the free. -/
def CallerPc.usesJob : CallerPc → Bool
  | .starting _ | .waiting _ | .releasing .. => true
  | .dropped _ _ left => left == 0
  | _ => false

def HelperPc.usesJob : HelperPc → Bool
  | .calling | .answered | .releasing => true
  | .dropped left => left == 0
  | _ => false

/-- The steps that read or write the job. -/
def CallStep.touchesJob (c : Call) : CallStep → Bool
  | .start _ | .wake | .drop | .answer _ | .helperDrop => true
  | .free => c.pc.usesJob
  | .helperFree => c.helper.usesJob
  | .enter _ | .prepare _ | .settle _ | .giveBack => false

theorem usesJob_iff (c : Call) : (c.pc.usesJob || c.helper.usesJob) = true ↔
    0 < c.pc.refs + c.helper.refs + c.pc.freeing + c.helper.freeing := by
  have hcaller : c.pc.usesJob = true ↔ 0 < c.pc.refs + c.pc.freeing := by
    cases c.pc <;> simp [CallerPc.usesJob, CallerPc.refs, CallerPc.freeing]
    split <;> simp_all
  have hhelper : c.helper.usesJob = true ↔ 0 < c.helper.refs + c.helper.freeing := by
    cases c.helper <;> simp [HelperPc.usesJob, HelperPc.refs, HelperPc.freeing]
    split <;> simp_all
  rw [Bool.or_eq_true, hcaller, hhelper]
  omega

/-- A job is freed when both sides have made their last access, and not
before. -/
theorem JobInv.freed_eq {c : Call} {j : Job} (h : JobInv c j) :
    j.freed = if c.pc.usesJob || c.helper.usesJob then 0 else 1 := by
  have h1 := h.refs
  have h2 := h.freed
  have huses := usesJob_iff c
  split
  · rename_i hu
    have := huses.1 hu
    split at h2 <;> omega
  · rename_i hu
    have := mt huses.2 hu
    rw [if_pos (by omega)] at h2
    omega

theorem Turn.usesJob {g : RepState} {since : Nat} {c : Call} {a : CallStep} {m : Moved} (ht : Turn g since c a m)
    (htouch : a.touchesJob c = true) : (c.pc.usesJob || c.helper.usesJob) = true := by
  cases ht with
  | done | reserve | prepare | prepareFails | undo | settle | giveBack => cases htouch
  | start | startFails | wake | drop => rfl
  | answer | helperDrop => exact Bool.or_true _
  | free =>
    rw [Bool.or_eq_true]
    exact .inl htouch
  | helperFree =>
    rw [Bool.or_eq_true]
    exact .inr htouch

/-- A job stays with its call, about the same host. -/
theorem Turn.keepsJob {g : RepState} {since : Nat} {c : Call} {a : CallStep} {m : Moved} {host : List Byte}
    (ht : Turn g since c a m) (h : CallInv host c) {j : Job} (hj : c.job = some j) :
    ∃ j', m.call.job = some j' ∧ j'.host = j.host ∧ j.freed ≤ j'.freed := by
  have hfree : ∀ left, (j.freeIf left).host = j.host ∧ j.freed ≤ (j.freeIf left).freed := by
    intro left
    rw [Job.freeIf_eq]
    exact ⟨rfl, Nat.le_add_right _ _⟩
  cases ht with
  | prepare => exact absurd (h.job j hj).1 (by simp [CallerPc.early])
  | done | reserve | prepareFails | undo | settle | giveBack => exact ⟨j, hj, rfl, Nat.le_refl _⟩
  | start | startFails | wake | drop | answer | helperDrop =>
    cases hj
    exact ⟨_, rfl, rfl, Nat.le_refl _⟩
  | free | helperFree =>
    cases hj
    exact ⟨_, rfl, hfree _⟩

/-- While the job is not freed, a side that still has it can go on. -/
theorem JobInv.goesOn {c : Call} {j : Job} (h : JobInv c j) (hj : c.job = some j) (hfreed : j.freed = 0) (g : RepState)
    (since : Nat) : ∃ a m, callStep g since c a = some m := by
  have huses : (c.pc.usesJob || c.helper.usesJob) = true := by
    have := h.freed_eq
    by_contra hu
    rw [if_neg hu] at this
    omega
  obtain ⟨pc, job, helper⟩ := c
  obtain rfl : job = some j := hj
  rcases Bool.or_eq_true _ _ ▸ huses with hu | hu
  · cases pc with
    | starting r => exact ⟨.start true, _, rfl⟩
    | waiting r => exact ⟨.wake, _, rfl⟩
    | releasing r next => exact ⟨.drop, _, rfl⟩
    | dropped r next left => exact ⟨.free, _, rfl⟩
    | _ => cases hu
  · cases helper with
    | calling => exact ⟨.answer 0, _, rfl⟩
    | answered => exact ⟨.giveBack, _, rfl⟩
    | releasing => exact ⟨.helperDrop, _, rfl⟩
    | dropped left => exact ⟨.helperFree, _, rfl⟩
    | _ => cases hu

/-! ## The answer -/

/-- A step of call `i` handed `host` to a provider. -/
def Handed (actions : List RepAction) (i : Nat) (host : List Byte) : Prop :=
  ∃ pre a post, actions = pre ++ .act i a :: post ∧ (repStep (repRun pre) (.act i a)).2 = some host

/-- That provider call returned `v`. -/
def ProviderAnswered (actions : List RepAction) (i : Nat) (host : List Byte) (v : Int) : Prop :=
  ∃ pre post, actions = pre ++ .act i (.answer v) :: post ∧ Handed pre i host ∧
    ∃ c, (repRun pre).calls[i]? = some c ∧ c.helper = .calling

theorem Handed.append {actions : List RepAction} {i : Nat} {host : List Byte} (h : Handed actions i host)
    (more : List RepAction) : Handed (actions ++ more) i host := by
  obtain ⟨pre, a, post, rfl, hask⟩ := h
  exact ⟨pre, a, post ++ more, by simp, hask⟩

theorem ProviderAnswered.append {actions : List RepAction} {i : Nat} {host : List Byte} {v : Int}
    (h : ProviderAnswered actions i host v) (more : List RepAction) : ProviderAnswered (actions ++ more) i host v := by
  obtain ⟨pre, post, rfl, hrest⟩ := h
  exact ⟨pre, post ++ more, by simp, hrest⟩

/-- The answer a caller has seen: `done` was set. -/
def CallerPc.observed : CallerPc → Option (Reservation × Int)
  | .releasing r (.finish (some v)) | .dropped r (.finish (some v)) _ | .settling r (.finish (some v)) => some (r, v)
  | _ => none

/-- What a call knows of the provider comes from its own helper's call. -/
structure CallHistory (actions : List RepAction) (i : Nat) (c : Call) : Prop where
  handed : c.helper ≠ .unborn → ∃ j, c.job = some j ∧ Handed actions i j.host
  answered : ∀ j, c.job = some j → j.done = true → ProviderAnswered actions i j.host j.verdict
  observed : ∀ r v, c.pc.observed = some (r, v) → ProviderAnswered actions i r.norm v

theorem CallHistory.append {actions : List RepAction} {i : Nat} {c : Call} (h : CallHistory actions i c)
    (more : List RepAction) : CallHistory (actions ++ more) i c := by
  refine ⟨fun hh => ?_, fun j hj hd => (h.answered j hj hd).append more, fun r v hv => (h.observed r v hv).append more⟩
  obtain ⟨j, hj, hhanded⟩ := h.handed hh
  exact ⟨j, hj, hhanded.append more⟩

/-- A step that leaves job and helper as they are for the history. -/
theorem CallHistory.goesOn {actions : List RepAction} {i : Nat} {c c' : Call} (h : CallHistory actions i c)
    (hhelper : c'.helper ≠ .unborn → c.helper ≠ .unborn)
    (hjob : ∀ j, c.job = some j → ∃ j', c'.job = some j' ∧ j'.host = j.host ∧ j'.done = j.done ∧ j'.verdict = j.verdict)
    (hnew : c.job = none → c'.job = none)
    (hobs : ∀ r v, c'.pc.observed = some (r, v) → c.pc.observed = some (r, v)) : CallHistory actions i c' := by
  refine ⟨fun hh => ?_, fun j' hj' hd => ?_, fun r v hv => h.observed r v (hobs r v hv)⟩
  · obtain ⟨j, hj, hhanded⟩ := h.handed (hhelper hh)
    obtain ⟨j', hj', hhost, -, -⟩ := hjob j hj
    exact ⟨j', hj', hhost ▸ hhanded⟩
  · cases hj : c.job with
    | none =>
      rw [hnew hj] at hj'
      cases hj'
    | some j =>
      obtain ⟨j'', hj'', hhost, hdone, hverdict⟩ := hjob j hj
      rw [hj'] at hj''
      cases hj''
      rw [hhost, hverdict]
      exact h.answered j hj (hdone ▸ hd)

/-- A turn of call `i` keeps its history. -/
theorem CallHistory.turn {actions : List RepAction} {i : Nat} {c : Call} {a : CallStep} {m : Moved} {host : List Byte}
    (h : CallHistory actions i c) (hinv : CallInv host c) (hc : (repRun actions).calls[i]? = some c)
    (ht : Turn (repRun actions).rep (repRun actions).puts.length c a m)
    (hasked : (repStep (repRun actions) (.act i a)).2 = m.asked) : CallHistory (actions ++ [.act i a]) i m.call := by
  have hmore := h.append [.act i a]
  have hsame : ∀ j, c.job = some j →
      ∃ j', c.job = some j' ∧ j'.host = j.host ∧ j'.done = j.done ∧ j'.verdict = j.verdict :=
    fun j hj => ⟨j, hj, rfl, rfl, rfl⟩
  have hfree : ∀ (j : Job) left, (j.freeIf left).host = j.host ∧ (j.freeIf left).done = j.done ∧
      (j.freeIf left).verdict = j.verdict := by
    intro j left
    rw [Job.freeIf_eq]
    exact ⟨rfl, rfl, rfl⟩
  cases ht with
  | done | reserve | prepareFails | undo | settle => exact hmore.goesOn id hsame id (fun _ _ hv => (nomatch hv))
  | @prepare r job helper =>
    obtain rfl : helper = .unborn := hinv.alone rfl
    refine ⟨fun hh => absurd rfl hh, fun j hj hd => ?_, fun _ _ hv => (nomatch hv)⟩
    cases hj
    cases hd
  | @start r j helper =>
    refine ⟨fun _ => ⟨j, rfl, actions, _, [], rfl, hasked⟩, hmore.answered, fun _ _ hv => (nomatch hv)⟩
  | @startFails r j helper =>
    refine hmore.goesOn id (fun j' hj' => ?_) (fun hj => (nomatch hj)) (fun _ _ hv => (nomatch hv))
    cases hj'
    exact ⟨_, rfl, rfl, rfl, rfl⟩
  | @wake r j helper =>
    refine ⟨hmore.handed, hmore.answered, fun r' v hv => ?_⟩
    cases hdone : j.done with
    | false =>
      rw [hdone] at hv
      cases hv
    | true =>
      rw [hdone] at hv
      cases hv
      -- the job is about the host the reservation is about
      have hhost : r.norm = j.host := by
        have h1 := hinv.norm r rfl
        have h2 := (hinv.job j rfl).2.1
        rw [h1] at h2
        exact Option.some.inj h2
      rw [hhost]
      exact hmore.answered j rfl hdone
  | @drop r next j helper =>
    refine hmore.goesOn id (fun j' hj' => ?_) (fun hj => (nomatch hj)) (fun r' v hv => ?_)
    · cases hj'
      exact ⟨_, rfl, rfl, rfl, rfl⟩
    · cases next with
      | undo => cases hv
      | finish answer => cases answer <;> exact hv
  | @free r next left j helper =>
    refine hmore.goesOn id (fun j' hj' => ?_) (fun hj => (nomatch hj)) (fun r' v hv => ?_)
    · cases hj'
      exact ⟨_, rfl, hfree j left⟩
    · cases next with
      | undo => cases hv
      | finish answer => cases answer <;> exact hv
  | @answer pc j v =>
    obtain ⟨j', hj', hhanded⟩ := h.handed (by simp)
    cases hj'
    refine ⟨fun _ => ⟨_, rfl, hhanded.append _⟩, fun j' hj' _ => ?_, hmore.observed⟩
    cases hj'
    exact ⟨actions, [], rfl, hhanded, _, hc, rfl⟩
  | @giveBack pc job => exact hmore.goesOn (by simp) hsame id (fun _ _ hv => hv)
  | @helperDrop pc j =>
    refine hmore.goesOn (by simp) (fun j' hj' => ?_) (fun hj => (nomatch hj)) (fun _ _ hv => hv)
    cases hj'
    exact ⟨_, rfl, rfl, rfl, rfl⟩
  | @helperFree pc j left =>
    refine hmore.goesOn (by simp) (fun j' hj' => ?_) (fun hj => (nomatch hj)) (fun _ _ hv => hv)
    cases hj'
    exact ⟨_, rfl, hfree j left⟩

theorem repRun_history (actions : List RepAction) : ∀ (i : Nat) c, (repRun actions).calls[i]? = some c →
    CallHistory actions i c := by
  induction actions using List.reverseRecOn with
  | nil =>
    intro i c hc
    cases hc
  | append_singleton actions a ih =>
    intro i c hc
    rcases calls_snoc hc with hold | ⟨host, rfl, -, rfl⟩ | ⟨act, c', m, rfl, hc', hm, hasked, rfl⟩
    · exact (ih i c hold).append [a]
    · exact ⟨fun hh => absurd rfl hh, fun _ hj => (nomatch hj), fun _ _ hv => (nomatch hv)⟩
    · obtain ⟨host, -, hinv⟩ := repRun_callInv actions i c' hc'
      exact (ih i c' hc').turn hinv hc' hm hasked

/-- **The job of a lookup is freed once**, after the last access of either
side: it is freed when and only when neither has one left, no step touches it
after that, and until then some step of the two goes on. And an answer the
caller saw is the one the provider gave about the host of this call. -/
theorem repRun_job (actions : List RepAction) (i : Nat) (c : Call) (hc : (repRun actions).calls[i]? = some c) :
    (∀ j, c.job = some j →
      j.freed = (if c.pc.usesJob || c.helper.usesJob then 0 else 1) ∧
      (∀ g since a m, callStep g since c a = some m → (a.touchesJob c = true → j.freed = 0) ∧
        ∃ j', m.call.job = some j' ∧ j'.host = j.host ∧ j.freed ≤ j'.freed) ∧
      ∀ g since, j.freed = 0 → ∃ a m, callStep g since c a = some m) ∧
      ∀ r v, c.pc.observed = some (r, v) →
        ∃ host, (callHosts actions)[i]? = some host ∧ normaliseHost host = some r.norm ∧ ProviderAnswered actions i r.norm v := by
  obtain ⟨host, hhost, hinv⟩ := repRun_callInv actions i c hc
  refine ⟨fun j hj => ?_, fun r v hv => ?_⟩
  · obtain ⟨-, -, hjob⟩ := hinv.job j hj
    refine ⟨hjob.freed_eq, fun g since a m hstep => ?_, fun g since hfreed => hjob.goesOn hj hfreed g since⟩
    have hturn := callStep_turn hstep
    refine ⟨fun htouch => ?_, hturn.keepsJob hinv hj⟩
    rw [hjob.freed_eq, if_pos (hturn.usesJob htouch)]
  · refine ⟨host, hhost, hinv.norm r ?_, (repRun_history actions i c hc).observed r v hv⟩
    generalize c.pc = pc at hv
    cases pc with
    | releasing r' next | dropped r' next left | settling r' next =>
      rcases next with (_ | answer) | _ <;> cases hv
      rfl
    | _ => cases hv

/-- The first check of a program, up to the start of its helper. -/
def firstCheck (host : List Byte) : List RepAction :=
  [.init 1 1500 300, .call host, .act 0 (.enter 100), .act 0 (.prepare true), .act 0 (.start true)]

/-- The provider answers in time, and the helper is the last to let go. -/
theorem repRun_job_answered :
    let actions := firstCheck (bytes "Evil.example.") ++ [.act 0 (.answer 2), .act 0 .wake, .act 0 .drop, .act 0 .free,
      .act 0 .giveBack, .act 0 .helperDrop, .act 0 .helperFree]
    let r : Reservation := ⟨bytes "evil.example", some 1, 1500, 300, 100, 0⟩
    let j : Job := ⟨r.norm, some 1, 0, true, 2, 1⟩
    (repRun actions).calls[0]? = some ⟨.settling r (.finish (some 2)), some j, .ended⟩ ∧ j.freed = 1 ∧
      ProviderAnswered actions 0 (bytes "evil.example") 2 := by
  intro actions r j
  have hc : (repRun actions).calls[0]? = some ⟨.settling r (.finish (some 2)), some j, .ended⟩ := by decide +kernel
  obtain ⟨hjob, hseen⟩ := repRun_job actions 0 _ hc
  obtain ⟨-, -, -, hanswered⟩ := hseen r 2 rfl
  exact ⟨hc, (hjob j rfl).1, hanswered⟩

end SecureProxy
