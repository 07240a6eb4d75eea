/-
The connections of the accept loop, and the server. What the main thread does
for a connection, step by step, is what the server's main thread does in one
step or in none, and from the start of its worker on both are the same: so
every run of the connections is a run of the server.
-/
import SecureProxy.AcceptLoopFacts

namespace SecureProxy

open Bytes Progs

/-- What is left to the main thread of the connection it has in hand, and
where the server's main thread is meanwhile. -/
inductive MainAt (g : Globals) (env : ClientEnv) : MainPc → Connection Unit → Prop
  | say {pc : MainPc} {e : LoopEvent} {k : Connection Unit} : MainAt g env pc k → MainAt g env pc (.say e k)
  | enter {k : Bool → Connection Unit} : MainAt g env .refusing (k false) → MainAt g env .counted (k true) →
      MainAt g env .admitting (.ask .enter k)
  | malloc {k : Bool → Connection Unit} : (∀ a, MainAt g env .counted (k a)) → MainAt g env .counted (.ask .malloc k)
  | create {k : Bool → Connection Unit} : k true = ofClient (handleClient g (some env)) → MainAt g env .counted (k false) →
      MainAt g env .counted (.ask .pthreadCreate k)
  | refuse {k : UInt64 → Connection Unit} : (∀ a, MainAt g env .testing (k a)) →
      MainAt g env .refusing (.ask (.client .nextRequestId) k)
  | abandon {k : UInt64 → Connection Unit} : (∀ a, MainAt g env .undoing (k a)) →
      MainAt g env .counted (.ask (.client .nextRequestId) k)
  | undo {k : Unit → Connection Unit} : (∀ a, MainAt g env .testing (k a)) →
      MainAt g env .undoing (.ask (.client .leave) k)
  | next {k : Unit → Connection Unit} : k () = .pure () → MainAt g env .testing (.ask .next k)

section

variable {g : Globals} {env : ClientEnv}

theorem refuseClient_mainAt : MainAt g env .refusing (refuseClient env) :=
  .say (.refuse fun _ => .say (.say (.next rfl)))

theorem abandonClient_mainAt (args : List LoopEvent) : MainAt g env .counted (abandonClient args) := by
  refine .abandon fun _ => .say (.say ?_)
  induction args with
  | nil => exact .undo fun _ => .next rfl
  | cons e es ih => exact .say ih

theorem startClient_mainAt : MainAt g env .counted (startClient g env) := by
  refine .malloc fun args => ?_
  cases args with
  | false => exact abandonClient_mainAt []
  | true => exact .create rfl (abandonClient_mainAt _)

theorem acceptClient_mainAt : MainAt g env .admitting (acceptClient g env) :=
  .enter refuseClient_mainAt startClient_mainAt

/-- With a connection in hand the main thread has not exited. -/
theorem MainAt.not_exited {pc : MainPc} {p : Connection Unit} (h : MainAt g env pc p) : pc ≠ .exited := by
  induction h with
  | say _ ih => exact ih
  | _ => simp

end

/-! ## The relation -/

abbrev LoopWorker := Worker LoopQuery.Answer LoopEvent Unit ClientEnv
abbrev ServerWorker := Worker Query.Answer ClientEvent Unit (Option ClientEnv)

/-- The connections that are over or have a worker, and the workers. -/
inductive Matched : List LoopWorker → List ServerWorker → Prop
  | nil : Matched [] []
  | ended {ws : List LoopWorker} {vs : List ServerWorker} (env : ClientEnv) : Matched ws vs →
      Matched (⟨env, .pure ()⟩ :: ws) vs
  | served {ws : List LoopWorker} {vs : List ServerWorker} (env : ClientEnv) (p : Handler Unit) : Matched ws vs →
      Matched (⟨env, ofClient p⟩ :: ws) (⟨some env, p⟩ :: vs)

theorem Matched.append {ws ws' : List LoopWorker} {vs vs' : List ServerWorker} (h : Matched ws vs) (h' : Matched ws' vs') :
    Matched (ws ++ ws') (vs ++ vs') := by
  induction h with
  | nil => exact h'
  | ended env _ ih => exact .ended env ih
  | served env p _ ih => exact .served env p ih

/-- A connection that goes on is a worker's. -/
theorem Matched.get {ws : List LoopWorker} {vs : List ServerWorker} (h : Matched ws vs) {i : Nat} {env : ClientEnv}
    {p : Connection Unit} (hi : ws[i]? = some ⟨env, p⟩) :
    p = .pure () ∨ ∃ j q, p = ofClient q ∧ vs[j]? = some ⟨some env, q⟩ ∧
      ∀ q', Matched (ws.set i ⟨env, ofClient q'⟩) (vs.set j ⟨some env, q'⟩) := by
  induction h generalizing i with
  | nil => cases hi
  | ended env' h ih =>
    cases i with
    | zero =>
      cases hi
      exact .inl rfl
    | succ i =>
      rcases ih hi with hover | ⟨j, q, hq, hj, hset⟩
      · exact .inl hover
      · exact .inr ⟨j, q, hq, hj, fun q' => .ended env' (hset q')⟩
  | served env' p' h ih =>
    cases i with
    | zero =>
      cases hi
      exact .inr ⟨0, p', rfl, rfl, fun q' => .served _ q' h⟩
    | succ i =>
      rcases ih hi with hover | ⟨j, q, hq, hj, hset⟩
      · exact .inl hover
      · exact .inr ⟨j + 1, q, hq, hj, fun q' => .served env' p' (hset q')⟩

/-- Where the main thread is makes no difference to an answer. -/
theorem serveGlobals_at {s s' : ServerState} {q : Query} {a : q.Answer} {now : Int} (h : serveGlobals s q a now s')
    (pc : MainPc) : serveGlobals { s with main := pc } q a now { s' with main := pc } := by
  cases q with
  | nextRequestId | policyCheckHost host | reputationIsEnabled =>
    obtain ⟨rfl, rfl⟩ := h
    exact ⟨rfl, rfl⟩
  | reputationCheck host | leave =>
    obtain rfl := show s' = _ from h
    rfl
  | cacheIsEnabled | cacheLookup key | cacheStore key data ttl =>
    obtain ⟨cache, hcache, rfl⟩ := h
    exact ⟨cache, hcache, rfl⟩

section

variable {g : Globals} {ws : List LoopWorker} {vs : List ServerWorker} {i : Nat} {env : ClientEnv}

theorem Matched.say {e : LoopEvent} {k : Connection Unit} (h : Matched ws vs) (hw : ws[i]? = some ⟨env, .say e k⟩)
    (s : ServerState) (log : List (LogEntry Query.Answer ClientEvent ServerNote)) :
    ∃ vs' log', Pool.Step (server g) ⟨s, vs, log⟩ ⟨s, vs', log'⟩ ∧ Matched (ws.set i ⟨env, k⟩) vs' := by
  rcases h.get hw with hover | ⟨j, p, hp, hj, hset⟩
  · cases hover
  · cases p with
    | say e' k' =>
      cases hp
      exact ⟨_, _, .say hj, hset k'⟩
    | pure a => cases hp
    | ask q k' => cases hp

theorem Matched.ask {q : LoopQuery} {k : q.Answer → Connection Unit} {a : q.Answer} {s s' : ServerState} {now : Int}
    (h : Matched ws vs) (hw : ws[i]? = some ⟨env, .ask q k⟩) (hserve : serveLoop s q a now s') {pc : MainPc}
    (hpc : pc = s.main ∨ pc ≠ .exited) (log : List (LogEntry Query.Answer ClientEvent ServerNote)) :
    s'.main = s.main ∧ ∃ vs' log', Pool.Step (server g) ⟨{ s with main := pc }, vs, log⟩ ⟨{ s' with main := pc }, vs', log'⟩ ∧
      Matched (ws.set i ⟨env, k a⟩) vs' := by
  rcases h.get hw with hover | ⟨j, p, hp, hj, hset⟩
  · cases hover
  · cases p with
    | ask q' k' =>
      cases hp
      obtain ⟨hmain, hans⟩ := hserve
      have hon : pc ≠ .exited := hpc.elim (fun heq => heq ▸ hmain) id
      exact ⟨(serveGlobals_frame hans).1, _, _, .ask (n := ⟨s.policy, now⟩) hj ⟨hon, rfl, serveGlobals_at hans pc⟩, hset (k' a)⟩
    | pure a => cases hp
    | say e k' => cases hp

end

/-- The server stands where the connections do: the main thread has none in
hand, or the last one. -/
inductive Refines (g : Globals) : LoopPool → ServerPool → Prop
  | idle {s : ServerState} {ws : List LoopWorker} {vs : List ServerWorker}
      {log : List (LogEntry LoopQuery.Answer LoopEvent Int)} {log' : List (LogEntry Query.Answer ClientEvent ServerNote)} :
      Matched ws vs → Refines g ⟨s, ws, log⟩ ⟨s, vs, log'⟩
  | inHand {s : ServerState} {pc : MainPc} {ws : List LoopWorker} {vs : List ServerWorker} {env : ClientEnv}
      {p : Connection Unit} {log : List (LogEntry LoopQuery.Answer LoopEvent Int)}
      {log' : List (LogEntry Query.Answer ClientEvent ServerNote)} :
      s.main = .admitting → MainAt g env pc p → Matched ws vs →
      Refines g ⟨s, ws ++ [⟨env, p⟩], log⟩ ⟨{ s with main := pc }, vs, log'⟩

section

variable {g : Globals} {env : ClientEnv} {pc : MainPc} {q : LoopQuery} {k : q.Answer → Connection Unit} {a : q.Answer}
  {s s' : ServerState} {now : Int}

/-- An answer to the connection in hand: it stays there, its worker goes on
with it, or it is over. -/
inductive Answer (g : Globals) (env : ClientEnv) (pc : MainPc) (s s' : ServerState) (p : Connection Unit) : Prop
  | quiet : s' = s → MainAt g env pc p → Answer g env pc s s' p
  | main (pc' : MainPc) (m : MainMove) : s'.main = s.main → mainStep { s with main := pc } m = { s' with main := pc' } →
      MainAt g env pc' p → Answer g env pc s s' p
  | started : pc = .counted → s' = { s with main := .testing } → p = ofClient (handleClient g (some env)) →
      Answer g env pc s s' p
  | ended : pc = .testing → s' = { s with main := .testing } → p = .pure () → Answer g env pc s s' p

theorem MainAt.answer (h : MainAt g env pc (.ask q k)) (hserve : serveLoop s q a now s') : Answer g env pc s s' (k a) := by
  cases h with
  | enter hrefuse hcount =>
    simp only [serveLoop] at hserve
    split at hserve
    · rename_i hfull
      obtain ⟨rfl, rfl⟩ := hserve
      exact .main .refusing .go rfl (by simp [mainStep, hfull]) hrefuse
    · rename_i hfull
      obtain ⟨rfl, rfl⟩ := hserve
      exact .main .counted .go rfl (by simp [mainStep, hfull]) hcount
  | malloc hrest => exact .quiet hserve (hrest a)
  | create hstart hrest =>
    obtain rfl := show s' = _ from hserve
    cases a with
    | true => exact .started rfl rfl hstart
    | false => exact .quiet rfl hrest
  | refuse hrest =>
    obtain ⟨-, rfl, rfl⟩ := hserve
    exact .main .testing .go rfl rfl (hrest _)
  | abandon hrest =>
    obtain ⟨-, rfl, rfl⟩ := hserve
    exact .main .undoing .fail rfl rfl (hrest _)
  | undo hrest =>
    obtain ⟨-, hs⟩ := hserve
    obtain rfl := show s' = _ from hs
    exact .main .testing .go rfl rfl (hrest a)
  | next hover =>
    obtain rfl := show s' = _ from hserve
    exact .ended rfl rfl hover

end

/-! ## The runs -/

/-- The server takes one step, or none. -/
def Follows (g : Globals) (R : ServerPool) (P' : LoopPool) : Prop :=
  Refines g P' R ∨ ∃ R', Pool.Step (server g) R R' ∧ Refines g P' R'

section

variable {g : Globals} {s s' : ServerState} {ws : List LoopWorker} {vs : List ServerWorker} {env : ClientEnv}
  {pc : MainPc} {p : Connection Unit} {log : List (LogEntry LoopQuery.Answer LoopEvent Int)}
  {log' : List (LogEntry Query.Answer ClientEvent ServerNote)}

/-- The connection in hand is given an answer. -/
theorem Answer.follows (h : Answer g env pc s s' p) (hmain : s.main = .admitting) (hm : Matched ws vs) :
    Follows g ⟨{ s with main := pc }, vs, log'⟩ ⟨s', ws ++ [⟨env, p⟩], log⟩ := by
  cases h with
  | quiet hs hp =>
    subst hs
    exact .inl (.inHand hmain hp hm)
  | main pc' m hsame hstep hp =>
    refine .inr ⟨⟨{ s' with main := pc' }, vs, log'⟩, .outside ⟨m, hstep.symm⟩, ?_⟩
    exact .inHand (hsame.trans hmain) hp hm
  | started hpc hs hp =>
    subst hpc hs hp
    have hstart : (server g).start { s with main := .counted } (some env) { s with main := .testing } := ⟨rfl, rfl⟩
    exact .inr ⟨_, .start hstart, .idle (hm.append (.served env _ .nil))⟩
  | ended hpc hs hp =>
    subst hpc hs hp
    have hover := hm.append (.ended env .nil)
    rw [List.append_nil] at hover
    exact .inl (.idle hover)

/-- A connection other than the one in hand, or that one. -/
theorem get_append_last {x w : LoopWorker} {i : Nat} (h : (ws ++ [x])[i]? = some w) :
    (ws[i]? = some w ∧ ∀ w', (ws ++ [x]).set i w' = ws.set i w' ++ [x]) ∨
      w = x ∧ ∀ w', (ws ++ [x]).set i w' = ws ++ [w'] := by
  by_cases hi : i < ws.length
  · rw [List.getElem?_append_left hi] at h
    exact .inl ⟨h, fun w' => List.set_append_left i w' hi⟩
  · obtain ⟨hlen, hget⟩ := List.getElem?_eq_some_iff.1 h
    rw [List.length_append, List.length_singleton] at hlen
    obtain rfl : i = ws.length := by omega
    refine .inr ⟨?_, fun w' => by simp⟩
    rw [← hget]
    simp

theorem Refines.step {P P' : LoopPool} {R : ServerPool} (h : Refines g P R) (hs : Pool.Step (acceptLoop g) P P') :
    Follows g R P' := by
  cases hs with
  | @start s s' ws log env hstart =>
    obtain ⟨hmain, rfl⟩ := hstart
    cases h with
    | @idle _ _ vs _ log' hm =>
      refine .inr ⟨⟨mainStep s .go, vs, log'⟩, .outside ⟨.go, rfl⟩, ?_⟩
      rw [show mainStep s .go = { s with main := .admitting } by simp [mainStep, show s.main = .accepting from hmain]]
      exact .inHand rfl acceptClient_mainAt hm
    | inHand hadmit _ _ =>
      rw [show s.main = _ from hmain] at hadmit
      cases hadmit
  | @say s ws log i env e k hw =>
    cases h with
    | @idle _ _ vs _ log' hm =>
      obtain ⟨vs', log₁, hstep, hm'⟩ := hm.say hw s log'
      exact .inr ⟨_, hstep, .idle hm'⟩
    | @inHand _ pc ws vs env' p _ log' hadmit hp hm =>
      rcases get_append_last hw with ⟨hw, hset⟩ | ⟨heq, hset⟩
      · obtain ⟨vs', log₁, hstep, hm'⟩ := hm.say hw { s with main := pc } log'
        rw [hset]
        exact .inr ⟨_, hstep, .inHand hadmit hp hm'⟩
      · cases heq
        cases hp with
        | say hp =>
          rw [hset]
          exact .inl (.inHand hadmit hp hm)
  | @ask s s' ws log i env q k a now hw hserve =>
    cases h with
    | @idle _ _ vs _ log' hm =>
      obtain ⟨hmain, vs', log₁, hstep, hm'⟩ := hm.ask hw hserve (.inl rfl) log'
      refine .inr ⟨_, hstep, ?_⟩
      rw [← hmain]
      exact .idle hm'
    | @inHand _ pc ws vs env' p _ log' hadmit hp hm =>
      rcases get_append_last hw with ⟨hw, hset⟩ | ⟨heq, hset⟩
      · obtain ⟨hmain, vs', log₁, hstep, hm'⟩ := hm.ask hw hserve (.inr hp.not_exited) log'
        rw [hset]
        exact .inr ⟨_, hstep, .inHand (hmain.trans hadmit) hp hm'⟩
      · cases heq
        rw [hset]
        exact (hp.answer hserve).follows hadmit hm
  | @outside s s' ws log hmove =>
    obtain ⟨m, helse, rfl⟩ := hmove
    cases h with
    | @idle _ _ vs _ log' hm => exact .inr ⟨⟨mainStep s m, vs, log'⟩, .outside ⟨m, rfl⟩, .idle hm⟩
    | @inHand _ pc ws vs env p _ log' hadmit hp hm =>
      -- the main thread is busy: only a signal comes in
      cases m with
      | signal =>
        refine .inr ⟨⟨mainStep { s with main := pc } .signal, vs, log'⟩, .outside ⟨.signal, rfl⟩, ?_⟩
        exact .inHand (s := mainStep s .signal) hadmit hp hm
      | go => simp [MainMove.elsewhere, MainPc.inBody, hadmit] at helse
      | fail => simp [MainMove.elsewhere, MainPc.inBody, hadmit] at helse

end

/-- **Every run of the connections is one of the server**: with the same
globals, but for where the main thread is with the connection in hand, and
the same workers, each as far as its connection has come. -/
theorem acceptLoop_refines_server {g : Globals} {p : Policy} {P : LoopPool}
    (h : Pool.Reach (acceptLoop g) { policy := p } P) :
    ∃ R, Pool.Reach (server g) { policy := p } R ∧ Refines g P R := by
  refine h.invariant (fun P => ∃ R, Pool.Reach (server g) { policy := p } R ∧ Refines g P R) ⟨_, .init, .idle .nil⟩ ?_
  rintro P P' ⟨R, hreach, hrefines⟩ hstep -
  rcases hrefines.step hstep with hsame | ⟨R', hstep', hrefines'⟩
  · exact ⟨R, hreach, hsame⟩
  · exact ⟨R', .step hreach hstep' trivial, hrefines'⟩

/-- They share their state, up to where the main thread is. -/
theorem Refines.shared {g : Globals} {P : LoopPool} {R : ServerPool} (h : Refines g P R) :
    R.shared = { P.shared with main := R.shared.main } := by
  cases h <;> rfl

/-- Two connections, one of them never served: the server has the other. -/
theorem acceptLoop_refines_server_two :
    twoConnections.workers.length = 2 ∧
      ∃ R, Pool.Reach (server {}) { policy := .zero } R ∧ Refines {} twoConnections R ∧ R.shared.nextRequestId = 3 := by
  have hreach : Pool.Reach (acceptLoop {}) { policy := .zero } twoConnections :=
    Pool.Reach.schedule (loopChoice_within {}) .init _
  obtain ⟨R, hR, hrefines⟩ := acceptLoop_refines_server hreach
  have hnext : twoConnections.shared.nextRequestId = 3 := by decide +kernel
  refine ⟨by decide +kernel, R, hR, hrefines, ?_⟩
  rw [hrefines.shared]
  exact hnext

end SecureProxy
