/-
What one step of a `reputation_check`, or of its helper thread, can do: every
way through the first section, and every step of a call with the globals, the
call and the job after it.
-/
import SecureProxy.ReputationSystem

namespace SecureProxy

open Bytes Machine

/-! ## The first section -/

/-- The ways through the first section of a check of `host` at the time `now`. -/
inductive Enters (g : RepState) (host : List Byte) (now : Int) : RepState → Entered → Prop
  /-- Not enabled, not a hostname, or too many calls. -/
  | refused {stats : ReputationStats} {reason : ReputationReason} : reason ≠ .cache →
      Enters g host now { g with stats } (.done ⟨.unavailable, reason⟩)
  | hit {stats : ReputationStats} {norm : List Byte} {i : Nat} {e : RepEntry} : normaliseHost host = some norm →
      cacheFind g.cache norm = some i → g.cache[i]? = some e → now < e.expires →
      Enters g host now { g with stats, cache := g.cache.set i { e with lastUsed := g.tick + 1 }, tick := g.tick + 1 }
        (.done ⟨e.verdict, .cache⟩)
  | missed {stats : ReputationStats} {norm : List Byte} : normaliseHost host = some norm →
      (∀ i e, cacheFind g.cache norm = some i → g.cache[i]? = some e → e.expires ≤ now) →
      g.inflight < reputationMaxInflight →
      Enters g host now { g with stats, inflight := g.inflight + 1 }
        (.reserved norm g.provider g.timeoutMs g.ttlSeconds)

theorem reserve_enters {g : RepState} {host norm : List Byte} {now : Int} (s : ReputationStats)
    (hnorm : normaliseHost host = some norm)
    (hexp : ∀ i e, cacheFind g.cache norm = some i → g.cache[i]? = some e → e.expires ≤ now) :
    Enters g host now (checkEnter.reserve g s norm).1 (checkEnter.reserve g s norm).2 := by
  unfold checkEnter.reserve
  split
  · exact .refused (by simp)
  · rename_i hlt
    exact .missed hnorm hexp (Nat.lt_of_not_le hlt)

theorem checkEnter_enters (g : RepState) (host : List Byte) (now : Int) :
    Enters g host now (checkEnter g host now).1 (checkEnter g host now).2 := by
  unfold checkEnter
  dsimp only
  split
  · exact .refused (by simp)
  · split
    · exact .refused (by simp)
    · rename_i norm hnorm
      split
      · rename_i i hit hfound
        obtain ⟨k, hk, hget⟩ := Option.bind_eq_some_iff.1 hfound
        obtain ⟨e, he, hpair⟩ := Option.map_eq_some_iff.1 hget
        obtain ⟨rfl, rfl⟩ := Prod.mk.inj hpair
        split
        · rename_i hfresh
          exact .hit hnorm hk he hfresh
        · rename_i hexp
          refine reserve_enters _ hnorm fun i e' hi he' => ?_
          rw [hk] at hi
          cases hi
          rw [he] at he'
          cases he'
          exact Int.not_lt.1 hexp
      · rename_i hfound
        refine reserve_enters _ hnorm fun i e hi he => ?_
        rw [hi, Option.bind_some, he] at hfound
        cases hfound

/-! ## Every step of a call -/

/-- The reservation a call holds between its first section and its last. -/
def CallerPc.flight : CallerPc → Option Reservation
  | .reserved r | .starting r | .waiting r | .releasing r _ | .dropped r _ _ | .settling r _ => some r
  | .entering _ | .returned .. => none

variable {g : RepState} {since : Nat}

/-- The steps of a call and of its helper. -/
inductive Turn (g : RepState) (since : Nat) : Call → CallStep → Moved → Prop
  | done {host job helper now g' res} : Enters g host now g' (.done res) →
      Turn g since ⟨.entering host, job, helper⟩ (.enter now) { rep := g', call := ⟨.returned none res, job, helper⟩ }
  | reserve {host job helper now g' norm provider timeoutMs ttl} :
      Enters g host now g' (.reserved norm provider timeoutMs ttl) →
      Turn g since ⟨.entering host, job, helper⟩ (.enter now)
        { rep := g', call := ⟨.reserved ⟨norm, provider, timeoutMs, ttl, now, since⟩, job, helper⟩ }
  | prepare {r job helper} : Turn g since ⟨.reserved r, job, helper⟩ (.prepare true)
      { rep := g, call := ⟨.starting r, some { host := r.norm, provider := r.provider }, helper⟩ }
  | prepareFails {r job helper} : Turn g since ⟨.reserved r, job, helper⟩ (.prepare false)
      { rep := g, call := ⟨.settling r .undo, job, helper⟩ }
  | start {r j helper} : Turn g since ⟨.starting r, some j, helper⟩ (.start true)
      { rep := g, call := ⟨.waiting r, some j, .calling⟩, asked := some j.host }
  | startFails {r j helper} : Turn g since ⟨.starting r, some j, helper⟩ (.start false)
      { rep := g, call := ⟨.releasing r .undo, some { j with refs := 1 }, helper⟩ }
  | wake {r j helper} : Turn g since ⟨.waiting r, some j, helper⟩ .wake
      { rep := g, call := ⟨.releasing r (.finish (if j.done then some j.verdict else none)), some j, helper⟩ }
  | drop {r next j helper} : Turn g since ⟨.releasing r next, some j, helper⟩ .drop
      { rep := g, call := ⟨.dropped r next j.drop.refs, some j.drop, helper⟩ }
  | free {r next left j helper} : Turn g since ⟨.dropped r next left, some j, helper⟩ .free
      { rep := g, call := ⟨.settling r next, some (j.freeIf left), helper⟩ }
  | undo {r job helper now} : Turn g since ⟨.settling r .undo, job, helper⟩ (.settle now)
      { rep := checkUndo g, call := ⟨.returned (some r) ⟨.unavailable, .error⟩, job, helper⟩ }
  | settle {r answer job helper now} : Turn g since ⟨.settling r (.finish answer), job, helper⟩ (.settle now)
      { rep := checkFinish g r.norm (checkResult answer r.ttl).1 (checkResult answer r.ttl).2 now
        call := ⟨.returned (some r) (checkResult answer r.ttl).1, job, helper⟩, put := settledPut g r answer now }
  | answer {pc j v} : Turn g since ⟨pc, some j, .calling⟩ (.answer v)
      { rep := g, call := ⟨pc, some { j with verdict := v, done := true }, .answered⟩ }
  | giveBack {pc job} : Turn g since ⟨pc, job, .answered⟩ .giveBack
      { rep := releaseInflight g, call := ⟨pc, job, .releasing⟩ }
  | helperDrop {pc j} : Turn g since ⟨pc, some j, .releasing⟩ .helperDrop
      { rep := g, call := ⟨pc, some j.drop, .dropped j.drop.refs⟩ }
  | helperFree {pc j left} : Turn g since ⟨pc, some j, .dropped left⟩ .helperFree
      { rep := g, call := ⟨pc, some (j.freeIf left), .ended⟩ }

theorem enterStep_turn {c : Call} {now : Int} {m : Moved} (h : enterStep g since c now = some m) :
    Turn g since c (.enter now) m := by
  obtain ⟨pc, job, helper⟩ := c
  cases pc with
  | entering host =>
    simp only [enterStep] at h
    have henters := checkEnter_enters g host now
    generalize checkEnter g host now = entered at h henters
    obtain ⟨g', e⟩ := entered
    cases e with
    | done res =>
      cases h
      exact .done henters
    | reserved norm provider timeoutMs ttl =>
      cases h
      exact .reserve henters
  | _ => cases h

/-- **Every step of a call is one of these.** -/
theorem callStep_turn {c : Call} {a : CallStep} {m : Moved} (h : callStep g since c a = some m) : Turn g since c a m := by
  cases a with
  | enter now => exact enterStep_turn h
  | prepare alloc =>
    obtain ⟨pc, job, helper⟩ := c
    cases pc with
    | reserved r =>
      cases alloc with
      | true =>
        cases h
        exact .prepare
      | false =>
        cases h
        exact .prepareFails
    | _ => cases h
  | start ok =>
    obtain ⟨pc, _ | j, helper⟩ := c
    · cases pc <;> cases h
    · cases pc with
      | starting r =>
        cases ok with
        | true =>
          cases h
          exact .start
        | false =>
          cases h
          exact .startFails
      | _ => cases h
  | wake =>
    obtain ⟨pc, _ | j, helper⟩ := c
    · cases pc <;> cases h
    · cases pc with
      | waiting r =>
        cases h
        exact .wake
      | _ => cases h
  | drop =>
    obtain ⟨pc, _ | j, helper⟩ := c
    · cases pc <;> cases h
    · cases pc with
      | releasing r next =>
        cases h
        exact .drop
      | _ => cases h
  | free =>
    obtain ⟨pc, _ | j, helper⟩ := c
    · cases pc <;> cases h
    · cases pc with
      | dropped r next left =>
        cases h
        exact .free
      | _ => cases h
  | settle now =>
    obtain ⟨pc, job, helper⟩ := c
    cases pc with
    | settling r next =>
      cases next with
      | undo =>
        cases h
        exact .undo
      | finish answer =>
        cases h
        exact .settle
    | _ => cases h
  | answer v =>
    obtain ⟨pc, _ | j, helper⟩ := c
    · cases helper <;> cases h
    · cases helper with
      | calling =>
        cases h
        exact .answer
      | _ => cases h
  | giveBack =>
    obtain ⟨pc, job, helper⟩ := c
    cases helper with
    | answered =>
      cases h
      exact .giveBack
    | _ => cases h
  | helperDrop =>
    obtain ⟨pc, _ | j, helper⟩ := c
    · cases helper <;> cases h
    · cases helper with
      | releasing =>
        cases h
        exact .helperDrop
      | _ => cases h
  | helperFree =>
    obtain ⟨pc, _ | j, helper⟩ := c
    · cases helper <;> cases h
    · cases helper with
      | dropped left =>
        cases h
        exact .helperFree
      | _ => cases h

/-! ## Runs -/

/-- A step that is not one of `reputation_init`, `reputation_shutdown` or a new
call does nothing, or is a turn of a call. -/
theorem repStep_act (s : RepSystem) (i : Nat) (a : CallStep) : repStep s (.act i a) = (s, none) ∨
    ∃ c m, s.calls[i]? = some c ∧ Turn s.rep s.puts.length c a m ∧
      repStep s (.act i a) = ({ rep := m.rep, calls := s.calls.set i m.call, puts := s.puts ++ m.put.toList }, m.asked) := by
  simp only [repStep]
  cases hm : s.calls[i]?.bind fun c => callStep s.rep s.puts.length c a with
  | none => exact .inl rfl
  | some m =>
    obtain ⟨c, hc, hstep⟩ := Option.bind_eq_some_iff.1 hm
    exact .inr ⟨c, m, hc, callStep_turn hstep, rfl⟩

theorem repRun_snoc (actions : List RepAction) (a : RepAction) :
    repRun (actions ++ [a]) = (repStep (repRun actions) a).1 :=
  run_append repStep {} actions [a]

def RepAction.host? : RepAction → Option (List Byte)
  | .call host => some host
  | _ => none

/-- The hosts the calls of a run are about. -/
def callHosts (actions : List RepAction) : List (List Byte) := actions.filterMap RepAction.host?

@[simp] theorem callHosts_append (actions actions' : List RepAction) :
    callHosts (actions ++ actions') = callHosts actions ++ callHosts actions' :=
  List.filterMap_append

theorem length_calls (actions : List RepAction) : (repRun actions).calls.length = (callHosts actions).length := by
  induction actions using List.reverseRecOn with
  | nil => rfl
  | append_singleton actions a ih =>
    rw [repRun_snoc, callHosts_append, List.length_append, ← ih]
    cases a with
    | init provider timeoutMs ttl => rfl
    | shutdown => rfl
    | call host => simp [repStep, callHosts, RepAction.host?]
    | act i a =>
      rcases repStep_act (repRun actions) i a with heq | ⟨c, m, -, -, heq⟩
      · rw [heq]
        rfl
      · rw [heq]
        simp [callHosts, RepAction.host?]

/-- A call after a step: as it was, new, or after a turn of its own. -/
theorem calls_snoc {actions : List RepAction} {a : RepAction} {i : Nat} {c : Call}
    (hc : (repRun (actions ++ [a])).calls[i]? = some c) :
    (repRun actions).calls[i]? = some c ∨
      (∃ host, a = .call host ∧ i = (callHosts actions).length ∧ c = { pc := .entering host }) ∨
      ∃ act c' m, a = .act i act ∧ (repRun actions).calls[i]? = some c' ∧
        Turn (repRun actions).rep (repRun actions).puts.length c' act m ∧
        (repStep (repRun actions) (.act i act)).2 = m.asked ∧ c = m.call := by
  rw [repRun_snoc] at hc
  cases a with
  | init provider timeoutMs ttl => exact .inl hc
  | shutdown => exact .inl hc
  | call host =>
    simp only [repStep] at hc
    by_cases hi : i < (repRun actions).calls.length
    · rw [List.getElem?_append_left hi] at hc
      exact .inl hc
    · obtain ⟨hlt, hget⟩ := List.getElem?_eq_some_iff.1 hc
      rw [List.length_append, List.length_singleton] at hlt
      obtain rfl : i = (repRun actions).calls.length := by omega
      rw [List.getElem_append_right (Nat.le_refl _)] at hget
      simp only [Nat.sub_self, List.getElem_singleton] at hget
      exact .inr (.inl ⟨host, rfl, length_calls actions, hget.symm⟩)
  | act k act =>
    rcases repStep_act (repRun actions) k act with heq | ⟨c', m, hc', hm, heq⟩
    · rw [heq] at hc
      exact .inl hc
    · by_cases hik : k = i
      · subst hik
        rw [heq, List.getElem?_set_self (List.getElem?_eq_some_iff.1 hc').1] at hc
        exact .inr (.inr ⟨act, c', m, rfl, hc', hm, by rw [heq], (Option.some.inj hc).symm⟩)
      · rw [heq, List.getElem?_set_ne hik] at hc
        exact .inl hc

/-- What holds of a new call, and is kept by every turn, holds of every call
and its host. -/
theorem calls_invariant {P : List Byte → Call → Prop} (hnew : ∀ host, P host { pc := .entering host })
    (hturn : ∀ {g since c a m host}, Turn g since c a m → P host c → P host m.call) (actions : List RepAction) :
    ∀ (i : Nat) c, (repRun actions).calls[i]? = some c → ∃ host, (callHosts actions)[i]? = some host ∧ P host c := by
  induction actions using List.reverseRecOn with
  | nil =>
    intro i c hc
    cases hc
  | append_singleton actions a ih =>
    have hkeep : ∀ (i : Nat) c, (repRun actions).calls[i]? = some c →
        ∃ host, (callHosts (actions ++ [a]))[i]? = some host ∧ P host c := by
      intro i c hc
      obtain ⟨host, hhost, hP⟩ := ih i c hc
      refine ⟨host, ?_, hP⟩
      rw [callHosts_append, List.getElem?_append_left (List.getElem?_eq_some_iff.1 hhost).1]
      exact hhost
    intro i c hc
    rcases calls_snoc hc with hold | ⟨host, rfl, rfl, rfl⟩ | ⟨act, c', m, rfl, hc', hm, -, rfl⟩
    · exact hkeep i c hold
    · exact ⟨host, by simp [callHosts, RepAction.host?], hnew host⟩
    · obtain ⟨host, hhost, hP⟩ := hkeep i c' hc'
      exact ⟨host, hhost, hturn hm hP⟩

end SecureProxy
