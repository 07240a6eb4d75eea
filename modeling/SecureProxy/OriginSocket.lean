/-
The socket to the origin, over a whole run of `handle_client`.

`Wire` follows it from `socket` to `close`. A run may do no more than the
automaton allows: one socket at a time, a byte in or out only while it is
connected, a question to the shared state or a page of the proxy's own only
while none is open. What is written on it is the request for the URL that was
read, or comes out of a tunnel.
-/
import SecureProxy.AuditPaths
import SecureProxy.OriginRequest

namespace SecureProxy

open Bytes Progs

inductive Wire where
  | closed
  /-- Not connected, or not yet known to be. -/
  | opened (fd : Fd)
  | connected (fd : Fd)
  deriving DecidableEq, Repr

/-- What may be done next, and what it leads to. -/
def Wire.say : Wire → ClientEvent → Option Wire
  | .closed, .conn (.socket fd) => some (.opened fd)
  | .opened fd, .conn (.connect fd' _) => if fd' = fd then some (.connected fd) else none
  | .opened fd, .conn (.close fd') | .connected fd, .conn (.close fd') => if fd' = fd then some .closed else none
  | .connected fd, .toOrigin _ | .connected fd, .relay .origin _ | .connected fd, .tunnel _
  | .connected fd, .respond .established _ => some (.connected fd)
  | .closed, .freeArgs | .closed, .respond (.error ..) _ | .closed, .respond (.blockPage ..) _ | .closed, .relay .cached _
  | .closed, .originConnect .. | .closed, .conn (.getaddrinfo ..) | .closed, .fetched .. | .closed, .log _
  | .closed, .drainAndClose => some .closed
  | _, _ => none

/-- No lock is waited for with a socket open. -/
def Wire.step (w : Wire) : Obs Query.Answer ClientEvent → Option Wire
  | .said e => w.say e
  | .asked .. => if w = .closed then some .closed else none

def wire (w : Wire) (t : Trace) : Option Wire := t.foldlM Wire.step w

def Wire.ofFd : Option Fd → Wire
  | none => .closed
  | some fd => .connected fd

section

variable {w : Wire} {t t' : Trace}

theorem wire_append : wire w (t ++ t') = (wire w t).bind fun w' => wire w' t' := List.foldlM_append

theorem wire_cons {x : Obs Query.Answer ClientEvent} : wire w (x :: t) = (w.step x).bind fun w' => wire w' t := rfl

theorem wire_idle (h : ∀ x ∈ t, w.step x = some w) : wire w t = some w := by
  induction t with
  | nil => rfl
  | cons x t ih =>
    rw [wire_cons, h x List.mem_cons_self]
    exact ih fun y hy => h y (List.mem_cons_of_mem _ hy)

/-- A run that goes well goes well up to any point of it. -/
theorem wire_prefix {w' : Wire} (h : wire w (t ++ t') = some w') : ∃ w₁, wire w t = some w₁ := by
  rw [wire_append] at h
  obtain ⟨w₁, h₁, -⟩ := Option.bind_eq_some_iff.1 h
  exact ⟨w₁, h₁⟩

end

/-! ## Connecting -/

def connTrace (es : List ConnEvent) : Trace := es.map fun e => .said (.conn e)

theorem connTrace_append (es es' : List ConnEvent) : connTrace (es ++ es') = connTrace es ++ connTrace es' :=
  List.map_append

theorem wire_attemptTrace (a : Attempt) (fd : Fd) (addr : Sockaddr) :
    wire .closed (connTrace (attemptTrace a fd addr)) =
      some (if (connectWithTimeout a).1 then .connected fd else .opened fd) := by
  unfold attemptTrace
  cases (connectWithTimeout a).1 <;> simp [connTrace, wire, Wire.step, Wire.say]

/-- An attempt that is given up leaves nothing open. -/
theorem wire_attempt_closed (a : Attempt) (fd : Fd) (addr : Sockaddr) :
    wire .closed (connTrace (attemptTrace a fd addr ++ [.close fd])) = some .closed := by
  rw [connTrace_append, wire_append, wire_attemptTrace]
  cases (connectWithTimeout a).1 <;> simp [connTrace, wire, Wire.step, Wire.say]

theorem connectWithTimeout_connected {a : Attempt} (h : (connectWithTimeout a).2 = true) :
    (connectWithTimeout a).1 = true := by
  unfold connectWithTimeout at h ⊢
  split
  · simp_all
  · split <;> rfl

theorem wire_connectLoop (allowPrivate : Bool) (attempt : Nat → Attempt) (list : List Sockaddr) : ∀ i,
    wire .closed (connTrace (connectLoop allowPrivate attempt i list).trace) =
      some (.ofFd (connectLoop allowPrivate attempt i list).outFd) := by
  induction list with
  | nil => exact fun _ => rfl
  | cons addr list ih =>
    intro i
    unfold connectLoop
    split
    · rfl
    · dsimp only
      split
      · exact ih (i + 1)
      · rename_i fd _
        split
        · rename_i hconnected
          split
          · exact wire_attempt_closed ..
          · rw [wire_attemptTrace, connectWithTimeout_connected hconnected]
            rfl
        · show wire .closed (connTrace (attemptTrace (attempt i) fd addr ++ .close fd :: _)) = _
          rw [List.append_cons, connTrace_append, wire_append, wire_attempt_closed]
          exact ih (i + 1)

theorem wire_originConnect (allowPrivate : Bool) (env : ConnectEnv) (host : List Byte) (port : Nat) :
    wire .closed (connTrace (originConnect allowPrivate env host port).trace) =
      some (.ofFd (originConnect allowPrivate env host port).outFd) := by
  have hlookups : wire .closed (connTrace (env.lookups host port)) = some .closed := by
    refine wire_idle fun x hx => ?_
    obtain ⟨e, he, rfl⟩ := List.mem_map.1 hx
    obtain ⟨b, h, p, rfl⟩ := mem_lookups e he
    rfl
  unfold originConnect
  split
  · rfl
  · split
    · exact hlookups
    · exact hlookups
    · split
      · exact hlookups
      · show wire .closed (connTrace (env.lookups host port ++ _)) = _
        rw [connTrace_append, wire_append, hlookups]
        exact wire_connectLoop ..

/-! ## Fetching -/

theorem wire_closes (fd : Option Fd) :
    wire (.ofFd fd) ((fd.toList.map fun fd => ClientEvent.conn (.close fd)).map .said) = some .closed := by
  cases fd with
  | none => rfl
  | some fd => simp [wire, Wire.ofFd, Wire.step, Wire.say]

/-- All that goes through a socket goes through it while it is connected. -/
theorem wire_fetchEvents {url : ParsedUrl} {r : FetchResult} (hconn : wire .closed (connTrace r.conn) = some (.ofFd r.originFd))
    (hnone : r.originFd = none → r.toOrigin = [] ∧ r.toClient = []) :
    wire .closed ((fetchEvents url r).map .said) = some .closed := by
  have hconn : wire .closed ((r.conn.map ClientEvent.conn).map .said) = some (.ofFd r.originFd) := by
    rw [List.map_map]
    exact hconn
  have htoOrigin : wire (.ofFd r.originFd) ((r.toOrigin.map ClientEvent.toOrigin).map .said) = some (.ofFd r.originFd) := by
    cases hfd : r.originFd with
    | none => rw [(hnone hfd).1]; rfl
    | some fd => exact wire_idle (by simp [Wire.ofFd, Wire.step, Wire.say])
  have htoClient :
      wire (.ofFd r.originFd) ((r.toClient.map (ClientEvent.relay .origin)).map .said) = some (.ofFd r.originFd) := by
    cases hfd : r.originFd with
    | none => rw [(hnone hfd).2]; rfl
    | some fd => exact wire_idle (by simp [Wire.ofFd, Wire.step, Wire.say])
  unfold fetchEvents
  rw [List.map_append, List.map_append, List.map_append, List.map_append, List.map_cons, List.cons_append, List.cons_append,
    List.cons_append, List.cons_append, wire_cons]
  show wire .closed (_ ++ _ ++ _ ++ _ ++ _) = some .closed
  rw [wire_append, wire_append, wire_append, wire_append, hconn, Option.bind_some, htoOrigin, Option.bind_some, htoClient,
    Option.bind_some, wire_closes]
  rfl

theorem wire_fetchAndRelay (allowPrivate : Bool) (env : FetchEnv) (url : ParsedUrl) (limit : Nat) :
    wire .closed ((fetchEvents url (fetchAndRelay allowPrivate env url limit)).map .said) = some .closed := by
  have hconn := wire_originConnect allowPrivate env.conn url.host url.port
  have hok := originConnect_ok_iff allowPrivate env.conn url.host url.port
  unfold fetchAndRelay
  generalize originConnect allowPrivate env.conn url.host url.port = conn at hconn hok ⊢
  obtain ⟨status, outFd, trace⟩ := conn
  dsimp only at hconn hok ⊢
  split
  · split
    · exact wire_fetchEvents hconn nofun
    · exact wire_fetchEvents hconn nofun
  · rename_i hnot
    have hfd : outFd = none := by
      cases outFd with
      | none => rfl
      | some fd => exact (hnot fd (hok.2 rfl) rfl).elim
    exact wire_fetchEvents (by rw [hconn, hfd]) fun _ => ⟨rfl, rfl⟩

/-! ## Runs -/

section

variable {ok : (q : Query) → q.Answer → Prop} {g : Globals} {env : ClientEnv} {requestId : UInt64} {t : Trace}
  {o o' : Outcome} {url : ParsedUrl}

theorem ChecksOnly.wire (h : ChecksOnly t) : wire .closed t = some .closed := by
  refine wire_idle fun x hx => ?_
  obtain ⟨q, a, rfl, -⟩ := h x hx
  rfl

theorem wire_page {r : ProxyResponse} {calls : List WriteCall} (h : r ≠ .established) :
    wire .closed [.said (.respond r calls)] = some .closed := by
  cases r with
  | error => rfl
  | blockPage => rfl
  | established => exact absurd rfl h

theorem Replies.wire (h : Replies env t) : wire .closed t = some .closed := by
  obtain ⟨r, calls, hown, rfl⟩ := h
  refine wire_page ?_
  rintro rfl
  rcases hown.status with h | h | h <;> cases h

theorem FetchRun.wire {key : Option (List Byte)} (h : FetchRun g env url key t) : wire .closed t = some .closed := by
  obtain ⟨t₁, t₂, rfl, hstored, hreply⟩ := h
  rw [wire_append, wire_append, wire_fetchAndRelay, Option.bind_some]
  have hstored : SecureProxy.wire .closed t₁ = some .closed := by
    cases hstored with
    | nothing => rfl
    | store => rfl
  rw [hstored, Option.bind_some]
  rcases hreply with ⟨-, hr⟩ | ⟨-, rfl⟩
  · exact hr.wire
  · rfl

theorem PlainRun.wire (h : PlainRun g env url t) : wire .closed t = some .closed := by
  cases h with
  | uncached on t hf => exact hf.wire
  | hit key data _ =>
    refine wire_idle fun x hx => ?_
    simp only [List.mem_cons, List.mem_map] at hx
    rcases hx with rfl | rfl | ⟨_, ⟨call, -, rfl⟩, rfl⟩
    · rfl
    · rfl
    · rfl
  | miss key t _ hf => exact hf.wire

theorem wire_openTunnel {fd : Fd} (h : Runs ok (openTunnel g env (some fd) o) t o') :
    wire (.connected fd) t = some .closed := by
  simp only [openTunnel, runs_bind_iff, runs_tell_iff] at h
  obtain ⟨t₁, -, t₂, rfl, h, rfl⟩ := h
  rw [wire_append, show wire (.connected fd) [.said (.respond .established _)] = some (.connected fd) from rfl,
    Option.bind_some]
  split at h
  · simp only [runs_bind_iff, runs_tells_iff, runs_pure_iff] at h
    obtain ⟨t₃, -, t₄, rfl, ⟨rfl, -⟩, rfl⟩ := h
    rw [List.append_nil]
    exact wire_closes (some fd)
  · simp only [runs_bind_iff, runs_tells_iff, runs_pure_iff] at h
    obtain ⟨t₃, -, t₄, rfl, ⟨rfl, -⟩, rfl⟩ := h
    rw [List.append_nil, List.map_append, wire_append, wire_idle, Option.bind_some]
    · exact wire_closes (some fd)
    · simp [Wire.step, Wire.say]

theorem wire_connectOrigin {target : ParsedConnect} (h : Runs ok (connectOrigin g env requestId target o) t o') :
    wire .closed t = some .closed := by
  have hconn := wire_originConnect g.allowPrivate env.connect target.host target.port
  have hok := originConnect_ok_iff g.allowPrivate env.connect target.host target.port
  simp only [connectOrigin, runs_bind_iff, runs_tells_iff] at h
  obtain ⟨t₁, -, t₂, rfl, h, rfl⟩ := h
  generalize originConnect g.allowPrivate env.connect target.host target.port = conn at hconn hok h ⊢
  have htold : wire .closed ((ClientEvent.originConnect target.host target.port :: conn.trace.map .conn).map .said) =
      some (.ofFd conn.outFd) := by
    rw [List.map_cons, List.map_map]
    exact hconn
  rw [wire_append, htold, Option.bind_some]
  have hnone : conn.status ≠ .ok → conn.outFd = none := by
    intro hne
    cases hfd : conn.outFd with
    | none => rfl
    | some fd => exact absurd (hok.2 (by rw [hfd]; rfl)) hne
  split at h
  · rename_i hstatus
    rw [hnone (by rw [hstatus]; decide)]
    exact (runs_block_replies h).wire
  · split at h
    · rename_i hne
      rw [hnone hne]
      exact (runs_badGateway h).wire
    · rename_i hstatus
      cases hfd : conn.outFd with
      | none =>
        have := hok.1 (not_not.1 hstatus)
        rw [hfd] at this
        cases this
      | some fd =>
        rw [hfd] at h
        exact wire_openTunnel h

end

/-! ## What a request comes to -/

theorem sendOnce_accepted (buf : List Byte) (writes : List WriteOutcome) : acceptedBytes [sendOnce buf writes] <+: buf := by
  have htake : ∀ n, acceptedBytes [⟨buf, n⟩] <+: buf := fun n => by simpa [acceptedBytes] using List.take_prefix n buf
  cases writes with
  | nil => exact htake _
  | cons w _ => cases w <;> exact htake _

/-- The trace behind the checks. -/
inductive Ending (ok : (q : Query) → q.Answer → Prop) (g : Globals) (env : ClientEnv) (requestId : UInt64) : Trace → Prop
  | nothing : Ending ok g env requestId []
  | page (r : ProxyResponse) (calls : List WriteCall) : r ≠ .established → acceptedBytes calls <+: r.text →
      Ending ok g env requestId [.said (.respond r calls)]
  | plain {t : Trace} (url : ParsedUrl) : readRequest env.client = some (.plain url) → PlainRun g env url t →
      Ending ok g env requestId t
  | connect {t : Trace} (target : ParsedConnect) (o o' : Outcome) : readRequest env.client = some (.connect target) →
      Runs ok (connectOrigin g env requestId target o) t o' → Ending ok g env requestId t

section

variable {ok : (q : Query) → q.Answer → Prop} {g : Globals} {env : ClientEnv} {requestId : UInt64} {t : Trace} {o : Outcome}

theorem Ending.block (reason : DecisionReason) : Ending ok g env requestId [.said (blockEvent env requestId reason)] :=
  .page _ _ nofun (sendAll_accepted ..).1

theorem runs_serveClient_ending (h : Runs ok (serveClient g env requestId) t o) :
    ∃ t₁ t₂, t = t₁ ++ t₂ ∧ ChecksOnly t₁ ∧ Ending ok g env requestId t₂ := by
  have hnone : ChecksOnly [] := by simp [ChecksOnly]
  have heq := serveClient_eq g env requestId
  cases hreq : readRequest env.client with
  | none =>
    rw [hreq] at heq
    rcases heq with ⟨o', heq⟩ | ⟨status, text, body, o', heq⟩
    · rw [heq] at h
      exact ⟨[], [], (runs_pure_iff.1 h).1, hnone, .nothing⟩
    · rw [heq] at h
      exact ⟨[], _, runs_error h, hnone, .page _ _ (by simp) (sendOnce_accepted ..)⟩
  | some req =>
    rw [hreq] at heq
    rw [show serveClient g env requestId = _ from heq] at h
    rcases runs_serveRequest h with ⟨-, rfl⟩ | ⟨-, hg⟩
    · exact ⟨[], _, rfl, hnone, .block _⟩
    · cases hg with
      | policy _ t₁ _ _ hask ht => exact ⟨t₁, _, ht, hask, .block _⟩
      | reputation t₁ _ _ hask ht => exact ⟨t₁, _, ht, hask, .block _⟩
      | cleared t₁ t₂ o₁ _ _ hask hrun ht =>
        refine ⟨t₁, t₂, ht, hask, ?_⟩
        cases req with
        | plain url => exact .plain url hreq (runs_servePlain hrun)
        | connect target => exact .connect target o₁ o hreq hrun

theorem Ending.wire (h : Ending ok g env requestId t) : wire .closed t = some .closed := by
  cases h with
  | nothing => rfl
  | page r calls hr => exact wire_page hr
  | plain url _ hrun => exact hrun.wire
  | connect target o o' _ hrun => exact wire_connectOrigin hrun

theorem wire_serveClient (h : Runs ok (serveClient g env requestId) t o) : wire .closed t = some .closed := by
  obtain ⟨t₁, t₂, rfl, hask, hend⟩ := runs_serveClient_ending h
  rw [wire_append, hask.wire]
  exact hend.wire

end

/-! ## What is written on it -/

def obsToOrigin : Obs Query.Answer ClientEvent → Option WriteCall
  | .said (.toOrigin call) => some call
  | .said (.freeArgs) | .said (.respond ..) | .said (.relay ..) | .said (.originConnect ..) | .said (.conn _)
  | .said (.fetched ..) | .said (.tunnel _) | .said (.log _) | .said .drainAndClose | .asked .. => none

/-- The calls on the origin's socket outside a tunnel. -/
def toOriginCalls (t : Trace) : List WriteCall := t.filterMap obsToOrigin

section

variable {ok : (q : Query) → q.Answer → Prop} {g : Globals} {env : ClientEnv} {requestId : UInt64} {t t' : Trace}
  {o : Outcome} {url : ParsedUrl}

theorem toOriginCalls_append : toOriginCalls (t ++ t') = toOriginCalls t ++ toOriginCalls t' := List.filterMap_append

theorem toOriginCalls_none (h : ∀ call, .said (.toOrigin call) ∉ t) : toOriginCalls t = [] := by
  refine List.filterMap_eq_nil_iff.2 fun x hx => ?_
  cases x with
  | asked => rfl
  | said e =>
    cases e with
    | toOrigin call => exact absurd hx (h call)
    | _ => rfl

theorem toOriginCalls_fetchEvents (url : ParsedUrl) (r : FetchResult) :
    toOriginCalls ((fetchEvents url r).map .said) = r.toOrigin := by
  have hpart : ∀ {α : Type} (f : α → ClientEvent) (l : List α), (∀ a, obsToOrigin (.said (f a)) = none) →
      toOriginCalls ((l.map f).map .said) = [] := by
    intro α f l hf
    refine List.filterMap_eq_nil_iff.2 fun x hx => ?_
    obtain ⟨_, hm, rfl⟩ := List.mem_map.1 hx
    obtain ⟨a, -, rfl⟩ := List.mem_map.1 hm
    exact hf a
  have hcalls : toOriginCalls ((r.toOrigin.map ClientEvent.toOrigin).map .said) = r.toOrigin := by
    rw [toOriginCalls, List.map_map, List.filterMap_map]
    exact List.filterMap_some
  unfold fetchEvents
  rw [List.map_append, List.map_append, List.map_append, List.map_append, toOriginCalls_append, toOriginCalls_append,
    toOriginCalls_append, toOriginCalls_append, hcalls, hpart _ _ fun _ => rfl, hpart _ _ fun _ => rfl, List.map_cons]
  show toOriginCalls ((r.conn.map ClientEvent.conn).map .said) ++ r.toOrigin ++ [] ++ [] ++ [] = r.toOrigin
  rw [hpart _ _ fun _ => rfl]
  simp

theorem fetchAndRelay_request (allowPrivate : Bool) (env : FetchEnv) (url : ParsedUrl) (limit : Nat) :
    acceptedBytes (fetchAndRelay allowPrivate env url limit).toOrigin <+: originRequest url := by
  rcases fetchAndRelay_toOrigin allowPrivate env url limit with h | h
  · rw [h]
    exact List.nil_prefix
  · rw [h]
    exact (sendAll_accepted ..).1

theorem FetchRun.toOriginCalls_eq {key : Option (List Byte)} (h : FetchRun g env url key t) :
    toOriginCalls t = (fetchAndRelay g.allowPrivate env.fetch url (captureLimit key)).toOrigin ∧ tunnelEvents t = [] := by
  obtain ⟨t₁, t₂, rfl, hstored, hreply⟩ := h
  have hstored : toOriginCalls t₁ = [] ∧ tunnelEvents t₁ = [] := by
    cases hstored with
    | nothing => exact ⟨rfl, rfl⟩
    | store => exact ⟨rfl, rfl⟩
  have hreply : toOriginCalls t₂ = [] ∧ tunnelEvents t₂ = [] := by
    rcases hreply with ⟨-, r, calls, -, rfl⟩ | ⟨-, rfl⟩
    · exact ⟨rfl, rfl⟩
    · exact ⟨rfl, rfl⟩
  rw [toOriginCalls_append, toOriginCalls_append, toOriginCalls_fetchEvents, hstored.1, hreply.1, tunnelEvents_append,
    tunnelEvents_append, (fetchEvents_unnoted ..).1, hstored.2, hreply.2]
  simp

/-- The origin of a plain request hears the request for its URL, or a
beginning of it. -/
theorem PlainRun.spoken (h : PlainRun g env url t) :
    acceptedBytes (toOriginCalls t) <+: originRequest url ∧ tunnelEvents t = [] := by
  cases h with
  | uncached on t hf =>
    obtain ⟨hcalls, htun⟩ := hf.toOriginCalls_eq
    refine ⟨?_, htun⟩
    rw [show toOriginCalls (.asked .cacheIsEnabled on :: t) = toOriginCalls t from rfl, hcalls]
    exact fetchAndRelay_request ..
  | hit key data _ =>
    have hnone : toOriginCalls (.asked .cacheIsEnabled true :: .asked (.cacheLookup key) (some data) ::
        ((sendAll data env.writes).calls.map (ClientEvent.relay .cached)).map .said) = [] :=
      toOriginCalls_none (by simp)
    refine ⟨by rw [hnone]; exact List.nil_prefix, List.filterMap_eq_nil_iff.2 fun x hx => ?_⟩
    simp only [List.mem_cons, List.mem_map] at hx
    rcases hx with rfl | rfl | ⟨_, ⟨call, -, rfl⟩, rfl⟩ <;> rfl
  | miss key t _ hf =>
    obtain ⟨hcalls, htun⟩ := hf.toOriginCalls_eq
    refine ⟨?_, htun⟩
    rw [show toOriginCalls (.asked .cacheIsEnabled true :: .asked (.cacheLookup key) none :: t) = toOriginCalls t from rfl,
      hcalls]
    exact fetchAndRelay_request ..

theorem openTunnel_spoken (henv : env.Progress) {fd : Option Fd} {o' : Outcome}
    (h : Runs ok (openTunnel g env fd o) t o') : toOriginCalls t = [] ∧ Faithful (tunnelEvents t) := by
  simp only [openTunnel, runs_bind_iff, runs_tell_iff] at h
  obtain ⟨t₁, -, t₂, rfl, h, rfl⟩ := h
  split at h
  · simp only [runs_bind_iff, runs_tells_iff, runs_pure_iff] at h
    obtain ⟨t₃, -, t₄, rfl, ⟨rfl, -⟩, rfl⟩ := h
    refine ⟨toOriginCalls_none (by simp), ?_⟩
    rw [tunnelEvents_append, List.append_nil]
    exact (tunnelEvents_tunnel [] fd).1 ▸ Faithful.nil
  · simp only [runs_bind_iff, runs_tells_iff, runs_pure_iff] at h
    obtain ⟨t₃, -, t₄, rfl, ⟨rfl, -⟩, rfl⟩ := h
    refine ⟨toOriginCalls_none (by simp), ?_⟩
    rw [tunnelEvents_append, List.append_nil, (tunnelEvents_tunnel _ fd).1]
    obtain ⟨-, -, hrest⟩ := @sendAllLoop_steady env.writes 0 establishedText henv.writes
    exact (tunnelLoop_delivered env.tunnel (Steady.start g.tunnelIdleSeconds hrest henv.tunnel)).faithful

theorem connectOrigin_spoken (henv : env.Progress) {target : ParsedConnect} {o' : Outcome}
    (h : Runs ok (connectOrigin g env requestId target o) t o') : toOriginCalls t = [] ∧ Faithful (tunnelEvents t) := by
  simp only [connectOrigin, runs_bind_iff, runs_tells_iff] at h
  obtain ⟨t₁, -, t₂, rfl, h, rfl⟩ := h
  rw [toOriginCalls_append, toOriginCalls_none (by simp), List.nil_append, tunnelEvents_append,
    (originConnect_unnoted ..).2.1, List.nil_append]
  have hpage : Replies env t₂ → toOriginCalls t₂ = [] ∧ Faithful (tunnelEvents t₂) := by
    rintro ⟨r, calls, -, rfl⟩
    exact ⟨rfl, Faithful.nil⟩
  split at h
  · exact hpage (runs_block_replies h)
  · split at h
    · exact hpage (runs_badGateway h)
    · exact openTunnel_spoken henv h

end

/-- What is said to an origin. -/
inductive Spoken (env : ClientEnv) (t : Trace) : Prop
  | nothing : toOriginCalls t = [] → tunnelEvents t = [] → Spoken env t
  | request (url : ParsedUrl) : readRequest env.client = some (.plain url) →
      acceptedBytes (toOriginCalls t) <+: originRequest url → tunnelEvents t = [] → Spoken env t
  | tunnel (target : ParsedConnect) : readRequest env.client = some (.connect target) → toOriginCalls t = [] →
      Faithful (tunnelEvents t) → Spoken env t

theorem Ending.spoken {ok : (q : Query) → q.Answer → Prop} {g : Globals} {env : ClientEnv} {requestId : UInt64} {t : Trace}
    (henv : env.Progress) (h : Ending ok g env requestId t) : Spoken env t := by
  cases h with
  | nothing => exact .nothing rfl rfl
  | page r calls _ => exact .nothing rfl rfl
  | plain url hreq hrun => exact .request url hreq hrun.spoken.1 hrun.spoken.2
  | connect target o o' hreq hrun =>
    obtain ⟨hcalls, htun⟩ := connectOrigin_spoken henv hrun
    exact .tunnel target hreq hcalls htun

theorem Spoken.within {env : ClientEnv} {t t' : Trace} (h : Spoken env t) (hcalls : toOriginCalls t' = toOriginCalls t)
    (htun : tunnelEvents t' = tunnelEvents t) : Spoken env t' := by
  cases h with
  | nothing hc ht => exact .nothing (hcalls.trans hc) (htun.trans ht)
  | request url hreq hc ht => exact .request url hreq (hcalls ▸ hc) (htun.trans ht)
  | tunnel target hreq hc ht => exact .tunnel target hreq (hcalls.trans hc) (htun ▸ ht)

end SecureProxy
