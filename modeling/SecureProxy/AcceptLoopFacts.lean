/-
What every accepted connection comes to, whoever has it in hand: it is closed
once, logged once under the request id drawn for it, and what was allocated
for it is freed once. `g_active_clients` counts those that were admitted and
are not over.
-/
import SecureProxy.AcceptLoop
import SecureProxy.Destination

namespace SecureProxy

open Bytes Progs

/-! ## The life of a connection -/

/-- The steps of a connection that use something up, or give it back. -/
inductive Mark where
  | admitted
  | allocated
  | drew (requestId : UInt64)
  | logged (requestId : UInt64)
  | closed
  | freed
  | left
  deriving DecidableEq, Repr

def markOf : Obs LoopQuery.Answer LoopEvent → Option Mark
  | .asked .enter true => some .admitted
  | .asked .malloc true => some .allocated
  | .asked (.client .nextRequestId) requestId => some (.drew requestId)
  | .asked (.client .leave) _ => some .left
  | .said .close | .said (.client .drainAndClose) => some .closed
  | .said (.client (.log record)) => some (.logged record.requestId)
  | .said (.client .freeArgs) => some .freed
  | _ => none

abbrev LoopTrace := List (Obs LoopQuery.Answer LoopEvent)

def marks (t : LoopTrace) : List Mark := t.filterMap markOf

@[simp] theorem marks_append (t t' : LoopTrace) : marks (t ++ t') = marks t ++ marks t' := List.filterMap_append

/-- The four lives of a connection: refused, without memory for its arguments,
without a thread, and served by a worker. -/
inductive Life : List Mark → Prop
  | refused (r : UInt64) : Life [.drew r, .logged r, .closed]
  | noArgs (r : UInt64) : Life [.admitted, .drew r, .logged r, .closed, .left]
  | noThread (r : UInt64) : Life [.admitted, .allocated, .drew r, .logged r, .closed, .freed, .left]
  | served (r : UInt64) : Life [.admitted, .allocated, .freed, .drew r, .logged r, .closed, .left]

/-! ## Complete runs -/

variable {ok : (q : LoopQuery) → q.Answer → Prop}

/-- A worker's observation, as its connection's. -/
def clientObs : Obs Query.Answer ClientEvent → Obs LoopQuery.Answer LoopEvent
  | .said e => .said (.client e)
  | .asked q a => .asked (.client q) a

theorem runs_ofClient {α : Type} {p : Handler α} {t : LoopTrace} {r : α} (h : Runs ok (ofClient p) t r) :
    ∃ t₀, Runs (fun q a => ok (.client q) a) p t₀ r ∧ t = t₀.map clientObs := by
  induction p generalizing t with
  | pure a =>
    cases h
    exact ⟨[], .pure, rfl⟩
  | say e k ih =>
    cases h with
    | say h =>
      obtain ⟨t₀, h₀, rfl⟩ := ih h
      exact ⟨_, .say h₀, rfl⟩
  | ask q k ih =>
    cases h with
    | ask hok h =>
      obtain ⟨t₀, h₀, rfl⟩ := ih _ h
      exact ⟨_, .ask hok h₀, rfl⟩

/-- Nothing of what is done for a request leaves a mark. -/
theorem marks_serveClient {ok : (q : Query) → q.Answer → Prop} {g : Globals} {env : ClientEnv} {requestId : UInt64}
    {t : Trace} {o : Outcome} (h : Runs ok (serveClient g env requestId) t o) : marks (t.map clientObs) = [] := by
  have hchecks : ∀ {t : Trace}, ChecksOnly t → marks (t.map clientObs) = [] := by
    intro t ht
    refine List.filterMap_eq_nil_iff.2 fun x hx => ?_
    obtain ⟨y, hy, rfl⟩ := List.mem_map.1 hx
    obtain ⟨q, a, rfl, hq⟩ := ht y hy
    cases q <;> first | rfl | cases hq
  have heq := serveClient_eq g env requestId
  cases hreq : readRequest env.client with
  | none =>
    rw [hreq] at heq
    rcases heq.runs h with rfl | ⟨status, bytes, calls, rfl⟩
    · rfl
    · rfl
  | some req =>
    rw [hreq] at heq
    rw [show serveClient g env requestId = _ from heq] at h
    rcases runs_serveRequest h with ⟨-, rfl⟩ | ⟨-, hg⟩
    · rfl
    · cases hg with
      | policy d t₁ _ _ hask heq =>
        rw [heq, List.map_append, marks_append, hchecks hask]
        rfl
      | reputation t₁ _ _ hask heq =>
        rw [heq, List.map_append, marks_append, hchecks hask]
        rfl
      | cleared t₁ t₂ o₁ _ _ hask hrun heq =>
        obtain ⟨hsay, hquery⟩ := hrun.all (serveAllowed_behind g env requestId req o₁).all
        rw [heq, List.map_append, marks_append, hchecks hask, List.nil_append]
        refine List.filterMap_eq_nil_iff.2 fun x hx => ?_
        obtain ⟨y, hy, rfl⟩ := List.mem_map.1 hx
        cases y with
        | said e =>
          have := hsay e hy
          cases e <;> first | rfl | cases this
        | asked q a =>
          have := hquery q a hy
          cases q <;> first | rfl | cases this

theorem marks_handleClient {g : Globals} {env : ClientEnv} {t : LoopTrace} {u : Unit}
    (h : Runs ok (ofClient (handleClient g (some env))) t u) :
    ∃ r, marks t = [.freed, .drew r, .logged r, .closed, .left] := by
  obtain ⟨t₀, h₀, rfl⟩ := runs_ofClient h
  obtain ⟨requestId, t₁, o, hrun, rfl⟩ := runs_handleClient h₀
  refine ⟨requestId, ?_⟩
  have hframe : marks ((wholeRun requestId env.durationMs o t₁).map clientObs) =
      [.freed, .drew requestId] ++ marks (t₁.map clientObs) ++ [.logged requestId, .closed, .left] := by
    simp only [wholeRun, List.map_append, List.map_cons, marks_append]
    rfl
  rw [hframe, marks_serveClient hrun]
  rfl

theorem marks_refuseClient {env : ClientEnv} {t : LoopTrace} {u : Unit} (h : Runs ok (refuseClient env) t u) :
    ∃ r, marks t = [.drew r, .logged r, .closed] := by
  simp only [refuseClient, LoopQuery.ask, runs_bind_iff, runs_tell_iff, runs_query_iff] at h
  obtain ⟨t₁, u₁, t₂, hsend, ⟨t₃, requestId, t₄, ⟨-, rfl⟩, ⟨t₅, -, t₆, rfl, ⟨t₇, -, t₈, rfl, ⟨-, rfl⟩, rfl⟩, rfl⟩, rfl⟩,
    rfl⟩ := h
  obtain ⟨t₀, h₀, rfl⟩ := runs_ofClient hsend
  refine ⟨requestId, ?_⟩
  rw [runs_tell_iff.1 h₀]
  rfl

theorem marks_abandonClient {args : List LoopEvent} {t : LoopTrace} {u : Unit} (h : Runs ok (abandonClient args) t u) :
    ∃ r, marks t = [.drew r, .logged r, .closed] ++ marks (args.map .said) ++ [.left] := by
  simp only [abandonClient, LoopQuery.ask, runs_bind_iff, runs_tell_iff, runs_tells_iff, runs_query_iff] at h
  obtain ⟨t₁, requestId, t₂, ⟨-, rfl⟩, ⟨t₃, -, t₄, rfl, ⟨t₅, -, t₆, rfl, ⟨t₇, -, t₈, rfl, ⟨t₉, -, t₁₀, ⟨-, rfl⟩,
    ⟨-, rfl⟩, rfl⟩, rfl⟩, rfl⟩, rfl⟩, rfl⟩ := h
  refine ⟨requestId, ?_⟩
  simp only [marks_append]
  rfl

/-- **A connection that is over has lived one of the four lives.** -/
theorem runs_acceptClient {g : Globals} {env : ClientEnv} {t : LoopTrace} {u : Unit}
    (h : Runs ok (acceptClient g env) t u) : Life (marks t) := by
  simp only [acceptClient, LoopQuery.ask, runs_bind_iff, runs_query_iff] at h
  obtain ⟨t₁, admitted, t₂, ⟨-, rfl⟩, h, rfl⟩ := h
  cases admitted with
  | false =>
    obtain ⟨r, hr⟩ := marks_refuseClient h
    rw [marks_append, hr]
    exact .refused r
  | true =>
    simp only [if_true, startClient, LoopQuery.ask, runs_bind_iff, runs_query_iff] at h
    obtain ⟨t₃, args, t₄, ⟨-, rfl⟩, h, rfl⟩ := h
    cases args with
    | false =>
      obtain ⟨r, hr⟩ := marks_abandonClient h
      rw [marks_append, marks_append, hr]
      exact .noArgs r
    | true =>
      simp only [if_true, runs_bind_iff, runs_query_iff] at h
      obtain ⟨t₅, started, t₆, ⟨-, rfl⟩, h, rfl⟩ := h
      cases started with
      | false =>
        obtain ⟨r, hr⟩ := marks_abandonClient h
        rw [marks_append, marks_append, marks_append, hr]
        exact .noThread r
      | true =>
        obtain ⟨r, hr⟩ := marks_handleClient h
        rw [marks_append, marks_append, marks_append, hr]
        exact .served r

/-! ## Parts of a life -/

/-- The request ids drawn for a connection, and those it was logged under. -/
def drawnIds (m : List Mark) : List UInt64 :=
  m.filterMap fun
    | .drew r => some r
    | _ => none

def loggedIds (m : List Mark) : List UInt64 :=
  m.filterMap fun
    | .logged r => some r
    | _ => none

/-- A connection that is over: closed once, logged once under its own id, its
arguments freed once if there were any, and its place given back if it had
one. -/
structure OnceEach (m : List Mark) : Prop where
  closed : m.count .closed = 1
  logged : ∃ r, drawnIds m = [r] ∧ loggedIds m = [r]
  freed : m.count .freed = if .allocated ∈ m then 1 else 0
  left : m.count .left = if .admitted ∈ m then 1 else 0

/-- A connection on its way: nothing has been done twice, or for nothing. -/
structure NoneTwice (m : List Mark) : Prop where
  admitted : m.count .admitted ≤ 1
  closed : m.count .closed ≤ 1
  logged : loggedIds m <+: drawnIds m ∧ (drawnIds m).length ≤ 1
  freed : m.count .freed ≤ if .allocated ∈ m then 1 else 0
  left : m.count .left ≤ if .admitted ∈ m then 1 else 0

theorem Life.onceEach {m : List Mark} (h : Life m) : OnceEach m := by
  cases h with
  | refused r => exact ⟨by simp, ⟨r, rfl, rfl⟩, by simp, by simp⟩
  | noArgs r => exact ⟨by simp, ⟨r, rfl, rfl⟩, by simp, by simp⟩
  | noThread r => exact ⟨by simp, ⟨r, rfl, rfl⟩, by simp, by simp⟩
  | served r => exact ⟨by simp, ⟨r, rfl, rfl⟩, by simp, by simp⟩

/-- The bounds as tests, which compute on a list that is closed but for the id. -/
theorem NoneTwice.of_ble {m : List Mark} (hadmitted : (m.count .admitted).ble 1 = true)
    (hclosed : (m.count .closed).ble 1 = true) (hlogged : loggedIds m <+: drawnIds m)
    (hdrawn : (drawnIds m).length.ble 1 = true) (hfreed : (m.count .freed).ble (if .allocated ∈ m then 1 else 0) = true)
    (hleft : (m.count .left).ble (if .admitted ∈ m then 1 else 0) = true) : NoneTwice m :=
  ⟨Nat.le_of_ble_eq_true hadmitted, Nat.le_of_ble_eq_true hclosed, ⟨hlogged, Nat.le_of_ble_eq_true hdrawn⟩,
    Nat.le_of_ble_eq_true hfreed, Nat.le_of_ble_eq_true hleft⟩

theorem Life.noneTwice {life m : List Mark} (h : Life life) (hm : m <+: life) : NoneTwice m := by
  have hle := hm.length_le
  rw [List.prefix_iff_eq_take.1 hm]
  generalize m.length = k at hle
  cases h with
  | refused r =>
    replace hle : k ≤ 3 := hle
    interval_cases k <;> exact .of_ble rfl rfl ⟨_, rfl⟩ rfl rfl rfl
  | noArgs r =>
    replace hle : k ≤ 5 := hle
    interval_cases k <;> exact .of_ble rfl rfl ⟨_, rfl⟩ rfl rfl rfl
  | noThread r =>
    replace hle : k ≤ 7 := hle
    interval_cases k <;> exact .of_ble rfl rfl ⟨_, rfl⟩ rfl rfl rfl
  | served r =>
    replace hle : k ≤ 7 := hle
    interval_cases k <;> exact .of_ble rfl rfl ⟨_, rfl⟩ rfl rfl rfl

/-- The connection was admitted, and its place has not been given back. -/
def holdsPlace (m : List Mark) : Bool := m.contains .admitted && !m.contains .left

/-- A place is taken where there was none. -/
theorem NoneTwice.enter {m : List Mark} (h : NoneTwice m) (h' : NoneTwice (m ++ [.admitted])) :
    holdsPlace m = false ∧ holdsPlace (m ++ [.admitted]) = true := by
  have hcount := h'.admitted
  rw [List.count_append, List.count_singleton_self] at hcount
  have hnew : Mark.admitted ∉ m := List.count_eq_zero.1 (by omega)
  have hleft := h.left
  rw [if_neg hnew] at hleft
  have hstay : Mark.left ∉ m := List.count_eq_zero.1 (by omega)
  simp [holdsPlace, hnew, hstay]

/-- It is given back where there is one. -/
theorem NoneTwice.leave {m : List Mark} (h' : NoneTwice (m ++ [.left])) :
    holdsPlace m = true ∧ holdsPlace (m ++ [.left]) = false := by
  have hleft := h'.left
  rw [List.count_append, List.count_singleton_self] at hleft
  split at hleft
  · rename_i hm
    have hin : Mark.admitted ∈ m := by simpa using hm
    have hstay : Mark.left ∉ m := List.count_eq_zero.1 (by omega)
    simp [holdsPlace, hin, hstay]
  · omega

/-- What a mark does to the count. -/
def placeDelta : Option Mark → Int
  | some .admitted => 1
  | some .left => -1
  | _ => 0

/-- A connection's next mark takes a place, gives one back, or does neither. -/
theorem NoneTwice.place {m : List Mark} {k : Option Mark} (h : NoneTwice m) (h' : NoneTwice (m ++ k.toList)) :
    ((holdsPlace (m ++ k.toList)).toNat : Int) = (holdsPlace m).toNat + placeDelta k := by
  have hother : .admitted ∉ k.toList → .left ∉ k.toList → placeDelta k = 0 →
      ((holdsPlace (m ++ k.toList)).toNat : Int) = (holdsPlace m).toNat + placeDelta k := by
    intro hadmit hleave hdelta
    have hsame : holdsPlace (m ++ k.toList) = holdsPlace m := by
      simp [holdsPlace, List.contains_eq_mem, hadmit, hleave]
    rw [hsame, hdelta, Int.add_zero]
  cases k with
  | none => exact hother (by simp) (by simp) rfl
  | some k =>
    cases k with
    | admitted =>
      obtain ⟨hbefore, hafter⟩ := h.enter h'
      simp only [Option.toList_some, hbefore, hafter]
      rfl
    | left =>
      obtain ⟨hbefore, hafter⟩ := h'.leave
      simp only [Option.toList_some, hbefore, hafter]
      rfl
    | allocated => exact hother (by simp) (by simp) rfl
    | drew r => exact hother (by simp) (by simp) rfl
    | logged r => exact hother (by simp) (by simp) rfl
    | closed => exact hother (by simp) (by simp) rfl
    | freed => exact hother (by simp) (by simp) rfl

/-! ## The pool -/

/-- The globals can always answer. -/
theorem acceptLoop_ok (g : Globals) (q : LoopQuery) : ∃ a, (acceptLoop g).Ok q a := by
  let s : ServerState := { policy := .zero }
  cases q with
  | enter => exact ⟨true, s, 0, _, ⟨rfl, rfl⟩⟩
  | malloc => exact ⟨true, s, 0, _, rfl⟩
  | pthreadCreate => exact ⟨true, s, 0, _, rfl⟩
  | next => exact ⟨(), s, 0, _, rfl⟩
  | client q =>
    cases q with
    | nextRequestId => exact ⟨_, s, 0, _, by decide, rfl, rfl⟩
    | policyCheckHost host => exact ⟨_, s, 0, _, by decide, rfl, rfl⟩
    | reputationIsEnabled => exact ⟨_, s, 0, _, by decide, rfl, rfl⟩
    | reputationCheck host => exact ⟨⟨.safe, .ok⟩, s, 0, _, by decide, rfl⟩
    | leave => exact ⟨(), s, 0, _, by decide, rfl⟩
    | cacheIsEnabled => exact ⟨_, s, 0, _, by decide, _, ⟨rfl, rfl⟩, rfl⟩
    | cacheLookup key => exact ⟨_, s, 0, _, by decide, _, ⟨true, rfl⟩, rfl⟩
    | cacheStore key data ttl => exact ⟨_, s, 0, _, by decide, _, ⟨true, rfl⟩, rfl⟩

theorem sound_noneTwice {g : Globals} {P : LoopPool} (h : P.Sound (acceptLoop g)) {i : Nat}
    {w : Worker LoopQuery.Answer LoopEvent Unit ClientEnv} (hw : P.workers[i]? = some w) :
    NoneTwice (marks (past P.log i)) := by
  obtain ⟨t, r, hrun⟩ := (h.leads i w hw).completes (acceptLoop_ok g)
  have hlife := runs_acceptClient (g := g) hrun
  rw [marks_append] at hlife
  exact hlife.noneTwice (List.prefix_append _ _)

/-- Elsewhere the main thread does not touch the count, or the request ids. -/
theorem mainStep_elsewhere {s : ServerState} {m : MainMove} (h : m.elsewhere s = true) :
    (mainStep s m).activeClients = s.activeClients ∧ (mainStep s m).nextRequestId = s.nextRequestId := by
  cases m with
  | signal => exact ⟨rfl, rfl⟩
  | fail =>
    have hbody : s.main.inBody = false := by simpa [MainMove.elsewhere] using h
    cases hm : s.main with
    | counted =>
      rw [hm] at hbody
      cases hbody
    | _ => simp [mainStep, hm]
  | go =>
    have hbody : s.main.inBody = false := by simpa using (Bool.and_eq_true_iff.1 h).1
    cases hm : s.main with
    | admitting | refusing | undoing =>
      rw [hm] at hbody
      cases hbody
    | tearingDown next => cases next <;> simp [mainStep, hm, teardownStep]
    | _ => simp [mainStep, hm]

/-- What an answer does to the count and to the request ids. -/
structure Serves (s : ServerState) (k : Option Mark) (s' : ServerState) : Prop where
  active : s'.activeClients = s.activeClients + placeDelta k
  bound : s.activeClients ≤ maxConcurrentClients → s'.activeClients ≤ maxConcurrentClients
  drew : ∀ r, k = some (.drew r) → r = s.nextRequestId ∧ s'.nextRequestId = s.nextRequestId + 1
  kept : drawnIds k.toList = [] → s'.nextRequestId = s.nextRequestId

theorem Serves.same {s s' : ServerState} {k : Option Mark} (hactive : s'.activeClients = s.activeClients)
    (hnext : s'.nextRequestId = s.nextRequestId) (hk : placeDelta k = 0) (hdrew : ∀ r, k ≠ some (.drew r)) :
    Serves s k s' :=
  ⟨by rw [hactive, hk, Int.add_zero], fun h => hactive ▸ h, fun r hr => absurd hr (hdrew r), fun _ => hnext⟩

theorem serveLoop_serves {s s' : ServerState} {q : LoopQuery} {a : q.Answer} {now : Int} (h : serveLoop s q a now s') :
    Serves s (markOf (.asked q a)) s' := by
  cases q with
  | enter =>
    simp only [serveLoop] at h
    split at h
    · obtain ⟨rfl, rfl⟩ := h
      exact .same rfl rfl rfl (by simp [markOf])
    · rename_i hlt
      obtain ⟨rfl, rfl⟩ := h
      refine ⟨rfl, fun _ => ?_, fun r hr => (nomatch hr), fun _ => rfl⟩
      simp only
      omega
  | malloc =>
    obtain rfl : s' = s := h
    cases a <;> exact .same rfl rfl rfl (by simp [markOf])
  | pthreadCreate =>
    obtain rfl := show s' = _ from h
    cases a <;> exact .same rfl rfl rfl (by simp [markOf])
  | next =>
    obtain rfl := show s' = _ from h
    exact .same rfl rfl rfl (by simp [markOf])
  | client q =>
    cases serveGlobals_served h.2 with
    | drew =>
      refine ⟨by simp [markOf, placeDelta], fun hb => hb, fun r hr => ?_, fun hr => (nomatch hr)⟩
      cases hr
      exact ⟨rfl, rfl⟩
    | left _ =>
      refine ⟨rfl, fun hb => ?_, fun r hr => (nomatch hr), fun _ => rfl⟩
      simp only
      omega
    | other cache hdraw hleave =>
      have hmark : markOf (.asked (.client q) a) = none := by
        cases q with
        | nextRequestId => exact absurd rfl hdraw
        | leave => exact absurd rfl hleave
        | _ => rfl
      rw [hmark]
      exact .same rfl rfl rfl (by simp)

theorem said_serves (s : ServerState) (e : LoopEvent) : Serves s (markOf (.said e)) s := by
  cases e with
  | close => exact .same rfl rfl rfl (by simp [markOf])
  | client e => cases e <;> exact .same rfl rfl rfl (by simp [markOf])

/-- The request ids a run has given out, in order. -/
def idsDrawn (log : List (LogEntry LoopQuery.Answer LoopEvent Int)) : List UInt64 :=
  drawnIds (marks (log.map LogEntry.obs))

/-- What holds of the count and of the request ids. -/
structure LoopInv (P : LoopPool) : Prop where
  active : P.shared.activeClients = P.tally fun t => holdsPlace (marks t)
  bound : P.shared.activeClients ≤ maxConcurrentClients
  ids : idsDrawn P.log = (List.range (idsDrawn P.log).length).map fun k => UInt64.ofNat (k + 1)
  next : P.shared.nextRequestId = UInt64.ofNat ((idsDrawn P.log).length + 1)

theorem marks_snoc (t : LoopTrace) (o : Obs LoopQuery.Answer LoopEvent) : marks (t ++ [o]) = marks t ++ (markOf o).toList := by
  rw [marks_append]
  congr 1

theorem idsDrawn_snoc (log : List (LogEntry LoopQuery.Answer LoopEvent Int))
    (x : LogEntry LoopQuery.Answer LoopEvent Int) :
    idsDrawn (log ++ [x]) = idsDrawn log ++ drawnIds (markOf x.obs).toList := by
  simp only [idsDrawn, List.map_append, List.map_cons, List.map_nil, marks_snoc]
  exact List.filterMap_append

theorem drawnIds_mark (k : Option Mark) : (∃ r, k = some (.drew r)) ∨ drawnIds k.toList = [] := by
  cases k with
  | none => exact .inr rfl
  | some k =>
    cases k with
    | drew r => exact .inl ⟨r, rfl⟩
    | _ => exact .inr rfl

/-- The next request id is the next number. -/
theorem Serves.ids {s s' : ServerState} {k : Option Mark} (h : Serves s k s') {ids : List UInt64}
    (hids : ids = (List.range ids.length).map fun n => UInt64.ofNat (n + 1))
    (hnext : s.nextRequestId = UInt64.ofNat (ids.length + 1)) :
    ids ++ drawnIds k.toList = (List.range (ids ++ drawnIds k.toList).length).map (fun n => UInt64.ofNat (n + 1)) ∧
      s'.nextRequestId = UInt64.ofNat ((ids ++ drawnIds k.toList).length + 1) := by
  rcases drawnIds_mark k with ⟨r, rfl⟩ | hnone
  · obtain ⟨rfl, hnext'⟩ := h.drew r rfl
    have hdrawn : drawnIds (some (Mark.drew s.nextRequestId)).toList = [s.nextRequestId] := rfl
    rw [hdrawn, List.length_append, List.length_singleton]
    refine ⟨?_, ?_⟩
    · rw [List.range_succ, List.map_append, ← hids, hnext]
      rfl
    · rw [hnext', hnext, UInt64.ofNat_add (ids.length + 1) 1]
      rfl
  · rw [hnone, List.append_nil]
    exact ⟨hids, (h.kept hnone).trans hnext⟩

/-- A connection goes on, and leaves one entry in the log. -/
theorem LoopInv.advance {g : Globals} {s s' : ServerState} {ws : List (Worker LoopQuery.Answer LoopEvent Unit ClientEnv)}
    {log : List (LogEntry LoopQuery.Answer LoopEvent Int)} {i : Nat} {env : ClientEnv} {p p' : Connection Unit}
    {o : Obs LoopQuery.Answer LoopEvent} {n : Option Int} (h : LoopInv ⟨s, ws, log⟩) (hw : ws[i]? = some ⟨env, p⟩)
    (hsound : Pool.Sound (acceptLoop g) ⟨s, ws, log⟩)
    (hsound' : Pool.Sound (acceptLoop g) ⟨s', ws.set i ⟨env, p'⟩, log ++ [⟨i, o, n⟩]⟩) (hs : Serves s (markOf o) s') :
    LoopInv ⟨s', ws.set i ⟨env, p'⟩, log ++ [⟨i, o, n⟩]⟩ := by
  have hi := (List.getElem?_eq_some_iff.1 hw).1
  have hnow := sound_noneTwice hsound hw
  have hthen := sound_noneTwice hsound' (i := i) (w := ⟨env, p'⟩) (by simp [hi])
  simp only [past_append, past_singleton, if_pos, marks_snoc] at hnow hthen
  have hplace := hnow.place hthen
  have htally : Pool.tally (⟨s', ws.set i ⟨env, p'⟩, log ++ [⟨i, o, n⟩]⟩ : LoopPool) (fun t => holdsPlace (marks t)) +
      (holdsPlace (marks (past log i))).toNat =
      Pool.tally (⟨s, ws, log⟩ : LoopPool) (fun t => holdsPlace (marks t)) +
        (holdsPlace (marks (past log i ++ [o]))).toNat := Pool.tally_advance hi ⟨env, p'⟩ o n
  rw [marks_snoc] at htally
  have hactive := h.active
  obtain ⟨hids, hnext⟩ := hs.ids h.ids h.next
  refine ⟨?_, hs.bound h.bound, ?_, ?_⟩
  · have := hs.active
    simp only at this hactive ⊢
    omega
  · rw [idsDrawn_snoc]
    exact hids
  · rw [idsDrawn_snoc]
    exact hnext

theorem acceptLoop_inv {g : Globals} {p : Policy} {P : LoopPool} (h : Pool.Reach (acceptLoop g) { policy := p } P) :
    LoopInv P := by
  refine (h.invariant (fun P => P.Sound (acceptLoop g) ∧ LoopInv P) ⟨⟨by simp, by simp⟩, ?_⟩ ?_).2
  · exact ⟨rfl, Int.natCast_nonneg maxConcurrentClients, rfl, rfl⟩
  · rintro P P' ⟨hsound, hinv⟩ hstep -
    have hsound' := hsound.step hstep
    refine ⟨hsound', ?_⟩
    cases hstep with
    | @start s s' ws log env hstart =>
      obtain ⟨-, rfl⟩ := hstart
      refine ⟨?_, hinv.bound, hinv.ids, hinv.next⟩
      rw [hsound.tally_start _ rfl]
      exact hinv.active
    | say hw => exact hinv.advance hw hsound hsound' (said_serves _ _)
    | ask hw hserve => exact hinv.advance hw hsound hsound' (serveLoop_serves hserve)
    | outside hmove =>
      obtain ⟨m, helse, rfl⟩ := hmove
      obtain ⟨hactive, hnext⟩ := mainStep_elsewhere helse
      exact ⟨hactive.trans hinv.active, hactive.le.trans hinv.bound, hinv.ids, hnext.trans hinv.next⟩

/-! ## Request ids -/

/-- An id that two connections have drawn has been drawn twice. -/
theorem count_idsDrawn (log : List (LogEntry LoopQuery.Answer LoopEvent Int)) {i j : Nat} (hij : i ≠ j) (r : UInt64) :
    (drawnIds (marks (past log i))).count r + (drawnIds (marks (past log j))).count r ≤ (idsDrawn log).count r := by
  induction log using List.reverseRecOn with
  | nil => exact Nat.le_refl _
  | append_singleton log x ih =>
    have hpast : ∀ k, (drawnIds (marks (past (log ++ [x]) k))).count r = (drawnIds (marks (past log k))).count r +
        if x.worker = k then (drawnIds (markOf x.obs).toList).count r else 0 := by
      intro k
      rw [past_append, past_singleton]
      by_cases hk : x.worker = k
      · rw [if_pos hk, if_pos hk, marks_snoc, drawnIds, List.filterMap_append, List.count_append]
        rfl
      · rw [if_neg hk, if_neg hk, List.append_nil, Nat.add_zero]
    rw [hpast, hpast, idsDrawn_snoc, List.count_append]
    by_cases hi : x.worker = i
    · rw [if_pos hi, if_neg (fun hj => hij (hi.symm.trans hj))]
      omega
    · rw [if_neg hi]
      split <;> omega

theorem nodup_numbered {n : Nat} (hn : n ≤ 2 ^ 64) : ((List.range n).map fun k => UInt64.ofNat (k + 1)).Nodup := by
  refine List.Nodup.map_on (fun a ha b hb heq => ?_) List.nodup_range
  have h := congrArg UInt64.toNat heq
  simp only [UInt64.toNat_ofNat'] at h
  have ha := List.mem_range.1 ha
  have hb := List.mem_range.1 hb
  omega

/-- No two connections share a request id, before they run out. -/
theorem LoopInv.ids_distinct {P : LoopPool} (h : LoopInv P) {i j : Nat} (hij : i ≠ j) {r : UInt64}
    (hi : r ∈ drawnIds (marks (past P.log i))) (hj : r ∈ drawnIds (marks (past P.log j))) :
    2 ^ 64 < (idsDrawn P.log).length := by
  by_contra hlen
  have hnodup : (idsDrawn P.log).Nodup := h.ids ▸ nodup_numbered (Nat.not_lt.1 hlen)
  have hcount := count_idsDrawn P.log hij r
  have hone := List.nodup_iff_count_le_one.1 hnodup r
  have hi := List.count_pos_iff.2 hi
  have hj := List.count_pos_iff.2 hj
  omega

/-! ## The result -/

/-- **`g_active_clients` is the number of connections that were admitted and
are not over**, and keeps its bound; every connection that is over was closed
once, logged once under the id drawn for it alone, and its arguments, if any,
freed once. On the way nothing is done twice. -/
theorem acceptLoop_connections {g : Globals} {p : Policy} {P : LoopPool}
    (h : Pool.Reach (acceptLoop g) { policy := p } P) :
    (P.shared.activeClients = P.tally (fun t => holdsPlace (marks t)) ∧ 0 ≤ P.shared.activeClients ∧
      P.shared.activeClients ≤ maxConcurrentClients) ∧
    (∀ i w, P.workers[i]? = some w → NoneTwice (marks (past P.log i)) ∧
      (w.rest = .pure () → OnceEach (marks (past P.log i)))) ∧
    ∀ i j r, i ≠ j → r ∈ drawnIds (marks (past P.log i)) → r ∈ drawnIds (marks (past P.log j)) →
      2 ^ 64 < (idsDrawn P.log).length := by
  have hinv := acceptLoop_inv h
  refine ⟨⟨hinv.active, hinv.active ▸ Int.natCast_nonneg _, hinv.bound⟩, fun i w hw => ?_, fun i j r hij => hinv.ids_distinct hij⟩
  refine ⟨sound_noneTwice h.sound hw, fun hdone => ?_⟩
  have hleads := h.sound.leads i w hw
  rw [hdone] at hleads
  have hrun := hleads.runs Runs.pure
  rw [List.append_nil] at hrun
  exact (runs_acceptClient (g := g) hrun).onceEach

/-- The loop with the answers of `malloc` and `pthread_create` as given. -/
def loopChoice : Choice LoopQuery.Answer ServerState ClientEnv Int Bool MainMove where
  start s _ := if s.main = .accepting then some { s with main := .admitting } else none
  serve s q yes :=
    match q with
    | .enter =>
      if s.activeClients ≥ maxConcurrentClients then some (false, 0, s)
      else some (true, 0, { s with activeClients := s.activeClients + 1 })
    | .malloc => some (yes, 0, s)
    | .pthreadCreate => some (yes, 0, if yes then { s with main := .testing } else s)
    | .next => some ((), 0, { s with main := .testing })
    | .client q => (serverChoice.serve s q 0).map fun (a, n, s') => (a, n.now, s')
  outside s m := mainStep s (if m.elsewhere s then m else .signal)

theorem loopChoice_within (g : Globals) : loopChoice.Within (acceptLoop g) where
  start s _ s' h := by
    simp only [loopChoice] at h
    split at h
    · rename_i hmain
      exact ⟨hmain, (Option.some.inj h).symm⟩
    · cases h
  serve s q yes a n s' h := by
    cases q with
    | enter =>
      simp only [loopChoice] at h
      simp only [acceptLoop, serveLoop]
      split at h
      · rename_i hfull
        cases h
        rw [if_pos hfull]
        exact ⟨rfl, rfl⟩
      · rename_i hfull
        cases h
        rw [if_neg hfull]
        exact ⟨rfl, rfl⟩
    | malloc =>
      cases h
      rfl
    | pthreadCreate =>
      cases h
      rfl
    | next =>
      cases h
      rfl
    | client q =>
      obtain ⟨⟨a', n', s''⟩, hserve, heq⟩ := Option.map_eq_some_iff.1 h
      cases heq
      obtain ⟨hmain, -, hans⟩ := (serverChoice_within g).serve s q 0 _ _ _ hserve
      exact ⟨hmain, hans⟩
  outside s m := by
    by_cases hm : m.elsewhere s = true
    · exact ⟨m, hm, by simp [loopChoice, hm]⟩
    · exact ⟨.signal, rfl, by simp [loopChoice, hm]⟩

def isOver : Connection Unit → Bool
  | .pure _ => true
  | _ => false

theorem eq_pure_of_isOver {p : Connection Unit} (h : isOver p = true) : p = .pure () := by
  cases p with
  | pure a => rfl
  | say e k => cases h
  | ask q k => cases h

/-- Two clients: for the first there is no thread, the second is served. -/
def twoConnections : LoopPool :=
  let env := idleEnv (bytes "http://a.example/\n")
  let moves : List (Move ClientEnv Bool MainMove) :=
    [.outside .go, .start env, .turn 0 true, .turn 0 true, .turn 0 false] ++ List.replicate 6 (.turn 0 true) ++
      [.outside .go, .start env] ++ List.replicate 20 (.turn 1 true)
  moves.foldl (Pool.move (acceptClient {}) loopChoice) ⟨{ policy := .zero }, [], []⟩

theorem acceptLoop_connections_two :
    twoConnections.shared.activeClients = 0 ∧
      ∀ i < 2, OnceEach (marks (past twoConnections.log i)) ∧ (drawnIds (marks (past twoConnections.log i))) ≠ [] := by
  have hreach : Pool.Reach (acceptLoop {}) { policy := .zero } twoConnections :=
    Pool.Reach.schedule (loopChoice_within {}) .init _
  obtain ⟨-, hconns, -⟩ := acceptLoop_connections hreach
  have hover : twoConnections.workers.length = 2 ∧ (twoConnections.workers.all fun w => isOver w.rest) = true := by
    decide +kernel
  refine ⟨by decide +kernel, fun i hi => ?_⟩
  have hw : twoConnections.workers[i]? = some twoConnections.workers[i] := List.getElem?_eq_getElem (by omega)
  have honce := (hconns i _ hw).2 (eq_pure_of_isOver (List.all_eq_true.1 hover.2 _ (List.getElem_mem _)))
  obtain ⟨r, hr, -⟩ := honce.logged
  exact ⟨honce, by simp [hr]⟩

end SecureProxy
