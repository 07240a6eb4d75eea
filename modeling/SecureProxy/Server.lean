/-
The whole server (`main` in `proxy.c`): the accept loop, the workers it
starts, and the shutdown that frees what the workers share.

The workers are a pool (`Lib.Pool`) over the globals; the main thread is the
rest of the world to them, and moves between any two of their steps. A step
is a critical section, a library call or a test of the source; `policy_free`
is one step, and nothing is asked of the globals once the process has exited.
Of the reputation module the server keeps whether it is on; what a check
answers is any, and so is the clock.
-/
import SecureProxy.Workers

namespace SecureProxy

open Bytes Progs

def maxConcurrentClients : Nat := 64
def shutdownWaitMs : Nat := 3000

/-- The calls of the shutdown sequence, in order. -/
inductive Teardown where
  | reputationShutdown
  | cacheDestroy
  | policyFree
  | loggerClose
  deriving DecidableEq, Repr

/-- Where the main thread is. -/
inductive MainPc where
  /-- At `while (!g_stop)`. -/
  | testing
  | accepting
  /-- A client is connected; the bound is to be checked. -/
  | admitting
  | refusing
  /-- The client is counted; its worker is to be started. -/
  | counted
  /-- No worker: the count is to be given back. -/
  | undoing
  /-- At the head of the wait, after `waitedMs`. -/
  | waiting (waitedMs : Nat)
  | napping (waitedMs : Nat)
  | tearingDown (next : Teardown)
  | exited
  deriving DecidableEq, Repr

structure ServerState where
  main : MainPc := .testing
  /-- `g_stop`, set by the signal handler. -/
  stop : Bool := false
  activeClients : Int := 0
  nextRequestId : UInt64 := 1
  policy : Policy
  reputationOn : Bool := false
  cache : CacheState := {}
  deriving DecidableEq

/-- What the main thread can do next; `signal` is the handler's. -/
inductive MainMove where
  | signal
  | go
  /-- `accept`, `malloc` or `pthread_create` fails. -/
  | fail
  deriving DecidableEq, Repr

/-- The end of the wait is decided on the count of active clients. -/
def waitStep (s : ServerState) (waitedMs : Nat) : MainPc :=
  if waitedMs < shutdownWaitMs ∧ s.activeClients ≠ 0 then .napping waitedMs else .tearingDown .reputationShutdown

def teardownStep (s : ServerState) : Teardown → ServerState
  | .reputationShutdown => { s with main := .tearingDown .cacheDestroy, reputationOn := false }
  | .cacheDestroy => { s with main := .tearingDown .policyFree, cache := SecureProxy.cacheDestroy s.cache }
  | .policyFree => { s with main := .tearingDown .loggerClose, policy := SecureProxy.policyFree s.policy }
  | .loggerClose => { s with main := .exited }

/-- The main thread, but for the start of a worker. A step that is not
possible changes nothing. -/
def mainStep (s : ServerState) : MainMove → ServerState
  | .signal => { s with stop := true }
  | .fail =>
    match s.main with
    | .accepting => { s with main := .testing }
    | .counted => { s with main := .undoing, nextRequestId := s.nextRequestId + 1 }
    | _ => s
  | .go =>
    match s.main with
    | .testing => { s with main := if s.stop then .waiting 0 else .accepting }
    | .accepting => { s with main := .admitting }
    | .admitting =>
      if s.activeClients ≥ maxConcurrentClients then { s with main := .refusing }
      else { s with main := .counted, activeClients := s.activeClients + 1 }
    | .refusing => { s with main := .testing, nextRequestId := s.nextRequestId + 1 }
    | .counted => s
    | .undoing => { s with main := .testing, activeClients := s.activeClients - 1 }
    | .waiting waitedMs => { s with main := waitStep s waitedMs }
    | .napping waitedMs => { s with main := .waiting (waitedMs + 50) }
    | .tearingDown next => teardownStep s next
    | .exited => s

/-- What is noted of an answer: the rules in force and the clock. -/
structure ServerNote where
  rules : Policy
  now : Int
  deriving DecidableEq

/-- What the globals answer. -/
def serveGlobals (s : ServerState) : (q : Query) → q.Answer → Int → ServerState → Prop
  | .nextRequestId, a, _, s' => a = s.nextRequestId ∧ s' = { s with nextRequestId := s.nextRequestId + 1 }
  | .policyCheckHost host, a, _, s' => a = policyCheckHost s.policy host ∧ s' = s
  | .reputationIsEnabled, a, _, s' => a = s.reputationOn ∧ s' = s
  | .reputationCheck _, _, _, s' => s' = s
  | .leave, _, _, s' => s' = { s with activeClients := s.activeClients - 1 }
  | q, a, now, s' => ∃ cache, serveCache s.cache q a now cache ∧ s' = { s with cache }

/-- The workers of a server with the settings `g`. -/
def server (g : Globals) : Service Query.Answer ClientEvent Unit ServerState (Option ClientEnv) ServerNote where
  prog := handleClient g
  start s _ s' := s.main = .counted ∧ s' = { s with main := .testing }
  serve s q a n s' := s.main ≠ .exited ∧ n.rules = s.policy ∧ serveGlobals s q a n.now s'
  outside s s' := ∃ m, s' = mainStep s m

abbrev ServerPool := Pool Query.Answer ClientEvent Unit ServerState (Option ClientEnv) ServerNote

/-! ## The policy checks of a run -/

/-- One `policy_check_host`, its answer and the rules it was evaluated on. -/
structure PolicyCheck where
  host : List Byte
  decision : PolicyDecision
  rules : Option Policy
  deriving DecidableEq

def policyCheckOf (x : LogEntry Query.Answer ClientEvent ServerNote) : Option PolicyCheck :=
  match x.obs with
  | .asked (.policyCheckHost host) decision => some ⟨host, decision, x.note.map ServerNote.rules⟩
  | _ => none

/-- Every `policy_check_host` the workers have made. -/
def policyChecks (P : ServerPool) : List PolicyCheck := P.log.filterMap policyCheckOf

/-- It was evaluated on the rules `p`. -/
structure PolicyCheck.On (p : Policy) (c : PolicyCheck) : Prop where
  rules : c.rules = some p
  decision : c.decision = policyCheckHost p c.host

/-- No check of the policy is left in it. -/
def NoPolicyCheck (p : Handler Unit) : Prop := p.All (fun q => ∀ host, q ≠ .policyCheckHost host) fun _ => True

/-- When `policy_free` runs, no worker has its policy check still to make. -/
def ChecksOver (P P' : ServerPool) : Prop :=
  P.shared.main = .tearingDown .policyFree → P'.shared.main = .tearingDown .loggerClose →
    ∀ w ∈ P.workers, NoPolicyCheck w.rest

/-- The policy has been freed. -/
def MainPc.freed : MainPc → Bool
  | .tearingDown .loggerClose | .exited => true
  | _ => false

/-- The policy is the loaded one, or nobody will ask it again. -/
structure PolicyInv (p : Policy) (P : ServerPool) : Prop where
  loaded : P.shared.main.freed = false → P.shared.policy = p
  settled : P.shared.main.freed = true → ∀ w ∈ P.workers, NoPolicyCheck w.rest
  checks : ∀ c ∈ policyChecks P, c.On p

/-- The main thread frees the policy in one step, and touches it in no other. -/
theorem mainStep_cases (s : ServerState) (m : MainMove) :
    ((mainStep s m).main.freed = s.main.freed ∧ (mainStep s m).policy = s.policy) ∨
      s.main = .tearingDown .policyFree ∧ (mainStep s m).main = .tearingDown .loggerClose := by
  cases m with
  | signal => exact .inl ⟨rfl, rfl⟩
  | fail =>
    refine .inl ?_
    cases hm : s.main <;> simp [mainStep, hm, MainPc.freed]
  | go =>
    cases hm : s.main with
    | testing =>
      refine .inl ?_
      cases hs : s.stop <;> simp [mainStep, hm, hs, MainPc.freed]
    | admitting =>
      refine .inl ?_
      simp only [mainStep, hm]
      split <;> simp [MainPc.freed]
    | waiting waitedMs =>
      refine .inl ?_
      simp only [mainStep, hm, waitStep]
      split <;> simp [MainPc.freed]
    | tearingDown next =>
      cases next with
      | policyFree => exact .inr ⟨rfl, by simp [mainStep, hm, teardownStep]⟩
      | reputationShutdown => exact .inl (by simp [mainStep, hm, teardownStep, MainPc.freed])
      | cacheDestroy => exact .inl (by simp [mainStep, hm, teardownStep, MainPc.freed])
      | loggerClose => exact .inl (by simp [mainStep, hm, teardownStep, MainPc.freed])
    | accepting => exact .inl (by simp [mainStep, hm, MainPc.freed])
    | refusing => exact .inl (by simp [mainStep, hm, MainPc.freed])
    | counted => exact .inl (by simp [mainStep, hm, MainPc.freed])
    | undoing => exact .inl (by simp [mainStep, hm, MainPc.freed])
    | napping waitedMs => exact .inl (by simp [mainStep, hm, MainPc.freed])
    | exited => exact .inl (by simp [mainStep, hm, MainPc.freed])

/-- All an answer can do to the globals. -/
inductive Served (s : ServerState) : (q : Query) → q.Answer → ServerState → Prop
  | drew : Served s .nextRequestId s.nextRequestId { s with nextRequestId := s.nextRequestId + 1 }
  | left (u : Unit) : Served s .leave u { s with activeClients := s.activeClients - 1 }
  | other {q : Query} {a : q.Answer} (cache : CacheState) : q ≠ .nextRequestId → q ≠ .leave → Served s q a { s with cache }

theorem serveGlobals_served {s s' : ServerState} {q : Query} {a : q.Answer} {now : Int} (h : serveGlobals s q a now s') :
    Served s q a s' := by
  cases q with
  | nextRequestId =>
    obtain ⟨rfl, rfl⟩ := h
    exact .drew
  | leave =>
    obtain rfl := show s' = _ from h
    exact .left a
  | policyCheckHost host =>
    obtain ⟨-, rfl⟩ := h
    exact .other s'.cache (by simp) (by simp)
  | reputationIsEnabled =>
    obtain ⟨-, rfl⟩ := h
    exact .other s'.cache (by simp) (by simp)
  | reputationCheck host =>
    obtain rfl := show s' = s from h
    exact .other s'.cache (by simp) (by simp)
  | cacheIsEnabled =>
    obtain ⟨cache, -, rfl⟩ := h
    exact .other cache (by simp) (by simp)
  | cacheLookup key =>
    obtain ⟨cache, -, rfl⟩ := h
    exact .other cache (by simp) (by simp)
  | cacheStore key data ttl =>
    obtain ⟨cache, -, rfl⟩ := h
    exact .other cache (by simp) (by simp)

/-- No worker's question moves the main thread or changes the rules. -/
theorem serveGlobals_frame {s s' : ServerState} {q : Query} {a : q.Answer} {now : Int} (h : serveGlobals s q a now s') :
    s'.main = s.main ∧ s'.policy = s.policy := by
  cases serveGlobals_served h with
  | drew => exact ⟨rfl, rfl⟩
  | left _ => exact ⟨rfl, rfl⟩
  | other cache _ _ => exact ⟨rfl, rfl⟩

namespace PolicyInv

variable {p : Policy} {s s' : ServerState} {ws : List (Worker Query.Answer ClientEvent Unit (Option ClientEnv))}
  {log : List (LogEntry Query.Answer ClientEvent ServerNote)} {i : Nat} {seed : Option ClientEnv} {r r' : Handler Unit}

theorem init (p : Policy) : PolicyInv p ⟨{ policy := p }, [], []⟩ :=
  ⟨fun _ => rfl, fun hf => absurd hf (by simp [MainPc.freed]), by simp [policyChecks]⟩

/-- A worker goes on, and leaves one entry in the log. -/
theorem advance (h : PolicyInv p ⟨s, ws, log⟩) (hmain : s'.main = s.main) (hpolicy : s'.policy = s.policy)
    (hw : ws[i]? = some ⟨seed, r⟩) (hrest : NoPolicyCheck r → NoPolicyCheck r')
    {x : LogEntry Query.Answer ClientEvent ServerNote} (hx : ∀ c, policyCheckOf x = some c → c.On p) :
    PolicyInv p ⟨s', ws.set i ⟨seed, r'⟩, log ++ [x]⟩ := by
  refine ⟨fun hf => ?_, fun hf w hm => ?_, fun c hc => ?_⟩
  · exact hpolicy.trans (h.loaded (hmain ▸ hf))
  · rcases List.mem_or_eq_of_mem_set hm with hm | rfl
    · exact h.settled (hmain ▸ hf) w hm
    · exact hrest (h.settled (hmain ▸ hf) _ (List.mem_of_getElem? hw))
  · simp only [policyChecks, List.filterMap_append, List.mem_append] at hc
    rcases hc with hc | hc
    · exact h.checks c hc
    · obtain ⟨y, hy, hyc⟩ := List.mem_filterMap.1 hc
      rw [List.mem_singleton.1 hy] at hyc
      exact hx c hyc

theorem step {g : Globals} {P P' : ServerPool} (h : PolicyInv p P) (hs : Pool.Step (server g) P P')
    (hok : ChecksOver P P') : PolicyInv p P' := by
  cases hs with
  | @start s s' ws log env hstart =>
    obtain ⟨hmain, rfl⟩ := hstart
    have hloaded := h.loaded (by rw [show s.main = _ from hmain]; rfl)
    exact ⟨fun _ => hloaded, fun hf => absurd hf (by simp [MainPc.freed]), h.checks⟩
  | say hw => exact h.advance rfl rfl hw (fun hr => hr.2) (by simp [policyCheckOf])
  | @ask s s' ws log i env q k a n hw hserve =>
    obtain ⟨-, hrules, hans⟩ := hserve
    obtain ⟨hmain, hpolicy⟩ := serveGlobals_frame hans
    refine h.advance hmain hpolicy hw (fun hr => hr.2 a) fun c hc => ?_
    cases q with
    | policyCheckHost host =>
      -- the worker is still to check, so the policy is still there
      have hfreed : s.main.freed = false := by
        cases hf : s.main.freed with
        | false => rfl
        | true => exact absurd rfl ((h.settled hf _ (List.mem_of_getElem? hw)).1 host)
      have hp := h.loaded hfreed
      simp only at hp
      cases hc
      exact ⟨by simp [hrules, hp], by rw [← hp]; exact hans.1⟩
    | _ => cases hc
  | @outside s s' ws log hmove =>
    obtain ⟨m, rfl⟩ := hmove
    rcases mainStep_cases s m with ⟨hfreed, hpolicy⟩ | ⟨hbefore, hafter⟩
    · refine ⟨fun hf => hpolicy.trans (h.loaded (hfreed ▸ hf)), fun hf => h.settled (hfreed ▸ hf), h.checks⟩
    · refine ⟨fun hf => ?_, fun _ => hok hbefore hafter, h.checks⟩
      rw [show (mainStep s m).main = _ from hafter] at hf
      cases hf

end PolicyInv

/-- **Every policy check is made on the loaded rules**, in every run in which
no worker has its check still to make when the main thread frees them. -/
theorem server_policyChecks {g : Globals} {p : Policy} {P : ServerPool}
    (h : Pool.ReachIf (server g) ChecksOver { policy := p } P) : ∀ c ∈ policyChecks P, c.On p :=
  (h.invariant (PolicyInv p) (PolicyInv.init p) fun _ _ ih hs hok => ih.step hs hok).checks

/-! ## Two shutdowns -/

/-- The server with the clock, and the allocator, as given; reputation checks
find every host safe. -/
def serverChoice : Choice Query.Answer ServerState (Option ClientEnv) ServerNote Int MainMove where
  start s _ := if s.main = .counted then some { s with main := .testing } else none
  serve s q now :=
    if s.main = .exited then none
    else match q with
      | .nextRequestId => some (s.nextRequestId, ⟨s.policy, now⟩, { s with nextRequestId := s.nextRequestId + 1 })
      | .policyCheckHost host => some (policyCheckHost s.policy host, ⟨s.policy, now⟩, s)
      | .reputationIsEnabled => some (s.reputationOn, ⟨s.policy, now⟩, s)
      | .reputationCheck _ => some (⟨.safe, .ok⟩, ⟨s.policy, now⟩, s)
      | .leave => some ((), ⟨s.policy, now⟩, { s with activeClients := s.activeClients - 1 })
      | .cacheIsEnabled => some (s.cache.enabled, ⟨s.policy, now⟩, s)
      | .cacheLookup key =>
        some ((cacheLookup s.cache key now true).2, ⟨s.policy, now⟩, { s with cache := (cacheLookup s.cache key now true).1 })
      | .cacheStore key data ttl =>
        some ((cacheStore s.cache key data ttl now true).2, ⟨s.policy, now⟩,
          { s with cache := (cacheStore s.cache key data ttl now true).1 })
  outside := mainStep

theorem serverChoice_within (g : Globals) : serverChoice.Within (server g) where
  start s _ s' h := by
    simp only [serverChoice] at h
    split at h
    · rename_i hmain
      exact ⟨hmain, (Option.some.inj h).symm⟩
    · cases h
  serve s q now a n s' h := by
    simp only [serverChoice] at h
    split at h
    · cases h
    · rename_i hmain
      cases q with
      | nextRequestId =>
        cases h
        exact ⟨hmain, rfl, rfl, rfl⟩
      | policyCheckHost host =>
        cases h
        exact ⟨hmain, rfl, rfl, rfl⟩
      | reputationIsEnabled =>
        cases h
        exact ⟨hmain, rfl, rfl, rfl⟩
      | reputationCheck host =>
        cases h
        exact ⟨hmain, rfl, rfl⟩
      | leave =>
        cases h
        exact ⟨hmain, rfl, rfl⟩
      | cacheIsEnabled =>
        cases h
        exact ⟨hmain, rfl, _, ⟨rfl, rfl⟩, rfl⟩
      | cacheLookup key =>
        cases h
        exact ⟨hmain, rfl, _, ⟨true, rfl⟩, rfl⟩
      | cacheStore key data ttl =>
        cases h
        exact ⟨hmain, rfl, _, ⟨true, rfl⟩, rfl⟩
  outside s m := ⟨m, rfl⟩

/-- A blocklist of one host. -/
def evilPolicy : Policy := ⟨[⟨bytes "evil.example", false⟩], [], false⟩

abbrev ServerMove := Move (Option ClientEnv) Int MainMove

/-- A client sends its request line; its worker has not yet come to its check. -/
def oneClient (line : String) : List ServerMove :=
  List.replicate 3 (.outside .go) ++ [.start (some (idleEnv (bytes line))), .turn 0 0, .turn 0 0]

/-- The stop signal, a wait of so many naps, and the teardown as far as
`policy_free`. -/
def shutdownAfter (naps : Nat) : List ServerMove := .outside .signal :: List.replicate (5 + 2 * naps) (.outside .go)

def serverRun (p : Policy) (moves : List ServerMove) : ServerPool :=
  moves.foldl (Pool.move (handleClient {}) serverChoice) ⟨{ policy := p }, [], []⟩

/-- A worker's program has come to its end. -/
def isDone : Handler Unit → Bool
  | .pure _ => true
  | _ => false

theorem noPolicyCheck_of_done {p : Handler Unit} (h : isDone p = true) : NoPolicyCheck p := by
  cases p with
  | pure a => trivial
  | say e k => cases h
  | ask q k => cases h

/-- The worker is done before the shutdown begins. -/
theorem server_policyChecks_drained :
    let P := serverRun evilPolicy
      (oneClient "http://good.example/\n" ++ List.replicate 12 (.turn 0 0) ++ shutdownAfter 0)
    policyChecks P = [⟨bytes "good.example", .allow, some evilPolicy⟩] ∧ ∀ c ∈ policyChecks P, c.On evilPolicy := by
  intro P
  have hok : ∀ P P' : ServerPool, decide (P.shared.main ≠ .tearingDown .policyFree) ||
      (P.workers.all fun w => isDone w.rest) → ChecksOver P P' := by
    intro P P' h hmain _ w hw
    simp only [Bool.or_eq_true, List.all_eq_true, decide_eq_true_eq] at h
    exact noPolicyCheck_of_done (h.resolve_left (not_not.2 hmain) w hw)
  have hreach : Pool.ReachIf (server {}) ChecksOver { policy := evilPolicy } P :=
    Pool.ReachIf.schedule (serverChoice_within {}) hok .init _ (by decide +kernel)
  exact ⟨by decide +kernel, server_policyChecks hreach⟩

/-- The worker comes to its check after `policy_free`, and the host is
allowed. -/
theorem server_emptied_policy :
    let P := serverRun evilPolicy (oneClient "http://evil.example/\n" ++ shutdownAfter 60 ++ [.turn 0 0])
    Pool.Reach (server {}) { policy := evilPolicy } P ∧
      policyChecks P = [⟨bytes "evil.example", .allow, some (policyFree evilPolicy)⟩] ∧
      policyCheckHost evilPolicy (bytes "evil.example") = .denyBlocklist ∧ P.shared.main ≠ .exited ∧
      ¬ ∀ c ∈ policyChecks P, c.On evilPolicy := by
  intro P
  have hchecks : policyChecks P = [⟨bytes "evil.example", .allow, some (policyFree evilPolicy)⟩] := by decide +kernel
  refine ⟨Pool.Reach.schedule (serverChoice_within {}) .init _, hchecks, by decide, by decide +kernel, fun h => ?_⟩
  have hon := h _ (by rw [hchecks]; exact List.mem_singleton_self _)
  exact absurd hon.decision (by decide)

end SecureProxy
