/-
`main` of the proxy up to its accept loop: the environment variables, the
policy files, the optional modules and the listening socket.

A stage prints and either goes on or ends the process with `EXIT_FAILURE`.
Where a file can be opened, what is in it and whether memory is had are given;
of `perror` only the prefix is modelled. The timeouts for origins are kept,
though the calls they bound answer as `Socket` and `OriginConnect` let them.
-/
import SecureProxy.Client
import SecureProxy.Fixture
import SecureProxy.Server

namespace SecureProxy

open Bytes

def defaultListenPort : Nat := 8080
def defaultLogPath : List Byte := bytes "proxy.log"
def defaultAllowlistPath : List Byte := bytes "config/allowlist.txt"
def defaultBlocklistPath : List Byte := bytes "config/blocklist.txt"
def defaultConnectTimeoutSeconds : Nat := 5
def defaultReadTimeoutSeconds : Nat := 10

/-! ## Stages -/

inductive Printed where
  | out (text : List Byte)
  | err (text : List Byte)
  | perror (what : String)
  deriving DecidableEq, Repr

/-- What a part of `main` prints and what comes of it, `none` for `EXIT_FAILURE`. -/
structure Stage (α : Type) where
  printed : List Printed
  result : Option α

namespace Stage

instance : Monad Stage where
  pure a := ⟨[], some a⟩
  bind x f :=
    match x.result with
    | none => ⟨x.printed, none⟩
    | some a => ⟨x.printed ++ (f a).printed, (f a).result⟩

def print (p : Printed) : Stage Unit := ⟨[p], some ()⟩

def exitFailure {α : Type} (p : Printed) : Stage α := ⟨[p], none⟩

variable {α β : Type}

theorem pure_result (a : α) : (pure a : Stage α).result = some a := rfl

theorem bind_result_eq_some {x : Stage α} {f : α → Stage β} {b : β} :
    (x >>= f).result = some b ↔ ∃ a, x.result = some a ∧ (f a).result = some b := by
  rcases x with ⟨printed, _ | a⟩
  · exact iff_of_false nofun fun ⟨_, h, _⟩ => nomatch h
  · simp only [Option.some.injEq, exists_eq_left']
    rfl

/-- What is printed does not matter to what comes of it. -/
theorem print_bind_result {p : Printed} {f : Unit → Stage β} : (print p >>= f).result = (f ()).result := rfl

theorem exitFailure_result (p : Printed) : (exitFailure p : Stage α).result = none := rfl

end Stage

/-! ## What `main` meets -/

structure StartEnv where
  getenv : String → Option (List Byte)
  /-- The file at a path, where `fopen` opens it. -/
  file : List Byte → Option (List Byte)
  /-- `open` of the log file. -/
  logOpens : List Byte → Bool
  blockAlloc : Nat → Bool := fun _ => true
  allowAlloc : Nat → Bool := fun _ => true
  fixtureCalloc : Bool := true
  fixtureAlloc : Nat → Bool := fun _ => true
  cacheAlloc : Bool := true
  socket : Bool := true
  setsockopt : Bool := true
  bind : Nat → Bool := fun _ => true
  listen : Bool := true

/-- A variable that is set, and not to the empty string. -/
def StartEnv.configured (env : StartEnv) (var : String) : Option (List Byte) :=
  (env.getenv var).filter fun e => !e.isEmpty

/-! ## Numeric settings -/

/-- A variable that holds a number, and what is said where it does not. -/
structure Setting where
  var : String
  low : Nat
  high : Nat
  must : String

def Setting.error (s : Setting) : Printed :=
  .err (bytes "proxy: error: " ++ bytes s.var ++ bytes " must be " ++ bytes s.must ++ [ch '\n'])

def Setting.read (s : Setting) (env : StartEnv) : Stage (Option Nat) :=
  match env.configured s.var with
  | none => pure none
  | some e =>
    let (v, rest) := strtol e
    if !rest.isEmpty || decide (v < s.low) || decide (v > s.high) then .exitFailure s.error
    else pure (some v.toNat)

def connectTimeoutSetting : Setting := ⟨"PROXY_ORIGIN_CONNECT_TIMEOUT_SECONDS", 1, 60, "1-60"⟩
def readTimeoutSetting : Setting := ⟨"PROXY_ORIGIN_READ_TIMEOUT_SECONDS", 1, 300, "1-300"⟩
def portSetting : Setting := ⟨"PROXY_PORT", 1, 65535, "a port number (1-65535)"⟩
def connectPortSetting : Setting := ⟨"PROXY_CONNECT_PORT", 1, 65535, "a port number (1-65535)"⟩
def tunnelIdleSetting : Setting := ⟨"PROXY_TUNNEL_IDLE_SECONDS", 1, 3600, "1-3600"⟩
def reputationTimeoutSetting : Setting := ⟨"PROXY_REPUTATION_TIMEOUT_MS", 50, 30000, "50-30000"⟩
def reputationTtlSetting : Setting := ⟨"PROXY_REPUTATION_TTL_SECONDS", 1, 86400, "1-86400"⟩

/-! ## The stages -/

/-- `logger_init`, without which the proxy goes on. -/
def startLogger (env : StartEnv) : Stage Bool := do
  let path := (env.configured "PROXY_LOG_FILE").getD defaultLogPath
  if env.logOpens path then return true
  else
    .print (.err (bytes "proxy: warning: cannot open log file '" ++ path ++ bytes "'; request logging disabled\n"))
    return false

def StartEnv.policyFiles (env : StartEnv) : PolicyFiles where
  block := env.file ((env.configured "PROXY_BLOCKLIST").getD defaultBlocklistPath)
  allow := env.file ((env.configured "PROXY_ALLOWLIST").getD defaultAllowlistPath)
  blockAlloc := env.blockAlloc
  allowAlloc := env.allowAlloc

/-- The warnings about a policy, and the line that sums it up. -/
def reportPolicy (env : StartEnv) (p : Policy) (report : PolicyLoadReport) : List Printed :=
  let blockPath := (env.configured "PROXY_BLOCKLIST").getD defaultBlocklistPath
  let malformed := report.blockMalformed + report.allowMalformed
  (if report.blockFileMissing then
    [.err (bytes "proxy: warning: blocklist '" ++ blockPath ++ bytes "' not found; no hosts are blocked\n")] else []) ++
  (if malformed > 0 then
    [.err (bytes "proxy: warning: ignored " ++ decimal malformed ++ bytes " malformed policy rule(s)\n")] else []) ++
  [.out (bytes "proxy: policy loaded: " ++ decimal p.blockRules.length ++ bytes " block rule(s), " ++
    decimal p.allowRules.length ++ bytes " allow rule(s), allowlist mode " ++
    bytes (if p.allowlistActive then "ON" else "off") ++ [ch '\n'])]

/-- The policy files. One that is named must be there. -/
def startPolicy (env : StartEnv) : Stage Policy :=
  match policyLoad env.policyFiles with
  | none => .exitFailure (.err (bytes "proxy: out of memory loading policy files\n"))
  | some (p, report) =>
    if (report.blockFileMissing && (env.configured "PROXY_BLOCKLIST").isSome) ||
        (report.allowFileMissing && (env.configured "PROXY_ALLOWLIST").isSome) then
      .exitFailure (.err (bytes "proxy: error: a policy file given via PROXY_ALLOWLIST/PROXY_BLOCKLIST " ++
        bytes "cannot be read; refusing to start with fewer rules than requested\n"))
    else ⟨reportPolicy env p report, some p⟩

/-- `origin_client_set_allow_private`, for the tests. -/
def startAllowPrivate (env : StartEnv) : Stage Bool :=
  if env.getenv "PROXY_UNSAFE_ALLOW_PRIVATE_NETWORKS" = some (bytes "1") then do
    .print (.err (bytes "proxy: WARNING: PROXY_UNSAFE_ALLOW_PRIVATE_NETWORKS=1 -- SSRF protection is " ++
      bytes "DISABLED. Use only for local testing.\n"))
    return true
  else return false

structure Timeouts where
  connectSeconds : Nat := defaultConnectTimeoutSeconds
  readSeconds : Nat := defaultReadTimeoutSeconds
  deriving DecidableEq, Repr

def originClientSetTimeouts (t : Timeouts) (connectSeconds readSeconds : Nat) : Timeouts where
  connectSeconds := if connectSeconds ≥ 1 then connectSeconds else t.connectSeconds
  readSeconds := if readSeconds ≥ 1 then readSeconds else t.readSeconds

def startTimeouts (env : StartEnv) : Stage Timeouts := do
  let connectS ← connectTimeoutSetting.read env
  let readS ← readTimeoutSetting.read env
  return originClientSetTimeouts {} (connectS.getD 0) (readS.getD 0)

/-- The globals of the module, with the provider's data. -/
structure Provided where
  fixture : Option FixtureData := none
  reputation : RepState := {}
  deriving DecidableEq, Repr

/-- `reputation_init` as it checks its arguments; the provider is there. -/
def reputationInitChecked (g : RepState) (provider timeoutMs ttl : Nat) : Option RepState :=
  if timeoutMs = 0 then none else some (reputationInit g provider timeoutMs ttl)

def fixtureOn (timeoutMs malformed : Nat) : Printed :=
  .out (bytes "proxy: reputation checks ON (offline fixture provider, timeout " ++ decimal timeoutMs ++ bytes " ms, " ++
    decimal malformed ++ bytes " malformed line(s) ignored)\n")

/-- The fixture file and `reputation_init`, both of which must succeed. -/
def startFixture (env : StartEnv) (path : List Byte) (timeoutMs ttl : Nat) : Stage Provided :=
  match reputationFixtureLoad (env.file path) env.fixtureCalloc env.fixtureAlloc,
      reputationInitChecked {} 0 timeoutMs ttl with
  | some d, some g => ⟨[fixtureOn timeoutMs d.malformed], some { fixture := some d, reputation := g }⟩
  | _, _ => .exitFailure (.err (bytes "proxy: error: cannot load the reputation fixture file; refusing to start\n"))

/-- Reputation checks are on where a fixture file is named. -/
def startReputation (env : StartEnv) : Stage Provided :=
  match env.configured "PROXY_REPUTATION_FIXTURE" with
  | none => pure {}
  | some path => do
    let timeoutMs ← reputationTimeoutSetting.read env
    let ttl ← reputationTtlSetting.read env
    startFixture env path (timeoutMs.getD 1500) (ttl.getD 300)

def startCache (env : StartEnv) : Stage CacheState :=
  if env.getenv "PROXY_CACHE" = some (bytes "0") then do
    .print (.out (bytes "proxy: response cache disabled (PROXY_CACHE=0)\n"))
    return {}
  else
    let (cache, ok) :=
      cacheInit {} cacheDefaultMaxEntries cacheDefaultMaxTotalBytes cacheDefaultMaxEntryBytes env.cacheAlloc
    if ok then pure cache
    else do
      .print (.err (bytes "proxy: warning: could not allocate the response cache; caching disabled\n"))
      return cache

/-- `create_listening_socket`, which exits where a call of it fails. -/
def createListeningSocket (env : StartEnv) (port : Nat) : Stage Unit :=
  if !env.socket then .exitFailure (.perror "socket")
  else if !env.setsockopt then .exitFailure (.perror "setsockopt(SO_REUSEADDR)")
  else if !env.bind port then .exitFailure (.perror "bind")
  else if !env.listen then .exitFailure (.perror "listen")
  else pure ()

/-- What `main` has set up when it comes to its loop. -/
structure Started where
  logging : Bool
  policy : Policy
  timeouts : Timeouts
  globals : Globals
  listenPort : Nat
  provided : Provided
  cache : CacheState
  deriving DecidableEq

/-- The state the loop and its workers share. -/
def Started.serverState (s : Started) : ServerState :=
  { policy := s.policy, reputationOn := s.provided.reputation.enabled, cache := s.cache }

def startup (env : StartEnv) : Stage Started := do
  let logging ← startLogger env
  let policy ← startPolicy env
  let allowPrivate ← startAllowPrivate env
  let timeouts ← startTimeouts env
  let listenPort := (← portSetting.read env).getD defaultListenPort
  let connectPort := (← connectPortSetting.read env).getD 443
  let tunnelIdleSeconds := (← tunnelIdleSetting.read env).getD 120
  .print (.out (bytes "proxy: CONNECT tunnelling allowed to port " ++ decimal connectPort ++ bytes " only\n"))
  let provided ← startReputation env
  let cache ← startCache env
  createListeningSocket env listenPort
  .print (.out (bytes "proxy: listening on port " ++ decimal listenPort ++ [ch '\n']))
  return { logging, policy, timeouts, globals := ⟨allowPrivate, connectPort, tunnelIdleSeconds⟩, listenPort, provided, cache }

end SecureProxy
