/-
When the proxy comes to serve, and with what.

`startup_serves` puts it without the order and the texts of `main`: every
number is spelled in digits, behind blanks and a plus sign at most, and lies
within its bounds; a file that is named is there; the socket listens. The log
file, a policy file under its default name and the cache are all that the proxy
does without.
-/
import SecureProxy.Startup

namespace SecureProxy

open Bytes

/-! ## Numbers -/

/-- The text of a number that is not negative, as `strtol` takes it. -/
structure Spelled (e : List Byte) (n : Nat) : Prop where
  text : ∃ blanks sign digits, e = blanks ++ (sign ++ digits) ∧ (∀ b ∈ blanks, isSpace b = true) ∧
    (sign = [] ∨ sign = [ch '+']) ∧ digits ≠ [] ∧ (∀ d ∈ digits, isDigit d = true) ∧ numVal digits = n

theorem isSpace_sign : isSpace (ch '+') = false ∧ isSpace (ch '-') = false := by decide

theorem isDigit_not_space : ∀ b, isDigit b = true → isSpace b = false ∧ b ≠ ch '-' ∧ b ≠ ch '+' :=
  forall_byte (by decide +kernel)

theorem signOf_digits {digits : List Byte} (h : ∀ d ∈ digits, isDigit d = true) : signOf digits = (false, digits) := by
  cases digits with
  | nil => rfl
  | cons d ds =>
    obtain ⟨-, hminus, hplus⟩ := isDigit_not_space d (h d (by simp))
    rw [signOf, if_neg hminus, if_neg hplus]

/-- Without a minus sign, there is a plus sign at most. -/
theorem signOf_plus {s t : List Byte} (h : signOf s = (false, t)) :
    ∃ sign, s = sign ++ t ∧ (sign = [] ∨ sign = [ch '+']) := by
  cases s with
  | nil => exact ⟨[], by simpa [signOf] using h, .inl rfl⟩
  | cons b s =>
    simp only [signOf] at h
    split at h
    · cases h
    · split at h
      · rename_i hplus
        cases h
        exact ⟨[ch '+'], by rw [hplus]; rfl, .inr rfl⟩
      · cases h
        exact ⟨[], rfl, .inl rfl⟩

theorem spelled_of_strtol {e : List Byte} {n : Nat} (hlow : 1 ≤ n) (hhigh : n < 2 ^ 63 - 1)
    (h : strtol e = ((n : Int), [])) : Spelled e n := by
  unfold strtol at h
  rcases hsign : signOf (e.dropWhile isSpace) with ⟨negative, t⟩
  simp only [hsign] at h
  split at h
  · rw [Prod.mk.injEq] at h
    omega
  · rename_i hdigits
    rw [Prod.mk.injEq] at h
    obtain ⟨hval, hrest⟩ := h
    have hall : ∀ d ∈ t, isDigit d = true := List.dropWhile_eq_nil_iff.1 hrest
    have ht : t.takeWhile isDigit = t := List.takeWhile_eq_self_iff.2 hall
    rw [ht] at hval hdigits
    cases negative with
    | true =>
      simp only [if_true] at hval
      omega
    | false =>
      simp only [Bool.false_eq_true, if_false] at hval
      obtain ⟨sign, hs, hplus⟩ := signOf_plus hsign
      refine ⟨e.takeWhile isSpace, sign, t, ?_, fun b hb => List.mem_takeWhile_imp hb, hplus,
        by simpa using hdigits, hall, by omega⟩
      rw [← hs, List.takeWhile_append_dropWhile]

theorem strtol_of_spelled {e : List Byte} {n : Nat} (hhigh : n < 2 ^ 63 - 1) (h : Spelled e n) :
    strtol e = ((n : Int), []) := by
  obtain ⟨blanks, sign, digits, rfl, hblanks, hsign, hne, hdigits, hn⟩ := h.text
  obtain ⟨d, ds, rfl⟩ := List.exists_cons_of_ne_nil hne
  have hdrop : (blanks ++ (sign ++ d :: ds)).dropWhile isSpace = sign ++ d :: ds := by
    rw [List.dropWhile_append_of_pos hblanks]
    rcases hsign with rfl | rfl
    · exact List.dropWhile_cons_of_neg (by simp [(isDigit_not_space d (hdigits d (by simp))).1])
    · exact List.dropWhile_cons_of_neg (by simp [isSpace_sign.1])
  have hsigned : signOf (sign ++ d :: ds) = (false, d :: ds) := by
    rcases hsign with rfl | rfl
    · exact signOf_digits hdigits
    · rfl
  have htake : (d :: ds).takeWhile isDigit = d :: ds := List.takeWhile_eq_self_iff.2 hdigits
  have hrest : (d :: ds).dropWhile isDigit = [] := List.dropWhile_eq_nil_iff.2 hdigits
  simp only [strtol, hdrop, hsigned, htake, hrest, hn, List.isEmpty_cons, Bool.false_eq_true, if_false, Prod.mk.injEq,
    and_true]
  omega

/-! ## Settings -/

/-- The number a setting stands for, `default` where it is not set. -/
inductive Setting.Gives (s : Setting) (env : StartEnv) (default : Nat) : Nat → Prop
  | unset : env.configured s.var = none → Gives s env default default
  | set {e : List Byte} {n : Nat} : env.configured s.var = some e → Spelled e n → s.low ≤ n → n ≤ s.high →
      Gives s env default n

/-- The bounds of a setting are such that `long` does not matter. -/
structure Setting.Bounded (s : Setting) : Prop where
  low : 1 ≤ s.low
  high : s.high < 2 ^ 63 - 1

/-- `strtol` and the tests that follow it accept a number in its spelling. -/
theorem strtol_accepts {s : Setting} (hs : s.Bounded) {e : List Byte} {n : Nat} :
    (((strtol e).2.isEmpty = true ∧ ¬ (strtol e).1 < s.low ∧ ¬ (strtol e).1 > s.high) ∧ (strtol e).1.toNat = n) ↔
      Spelled e n ∧ s.low ≤ n ∧ n ≤ s.high := by
  have hlow := hs.low
  have hhigh := hs.high
  constructor
  · rintro ⟨⟨hrest, hmin, hmax⟩, rfl⟩
    refine ⟨spelled_of_strtol (by omega) (by omega) ?_, by omega, by omega⟩
    rw [Int.toNat_of_nonneg (by omega)]
    exact Prod.ext rfl (List.isEmpty_iff.1 hrest)
  · rintro ⟨hspelled, hmin, hmax⟩
    rw [strtol_of_spelled (by omega) hspelled]
    refine ⟨⟨rfl, ?_, ?_⟩, Int.toNat_natCast n⟩ <;> simp only [] <;> omega

theorem Setting.read_gives {s : Setting} (hs : s.Bounded) {env : StartEnv} {v : Option Nat}
    (h : (s.read env).result = some v) (default : Nat) : s.Gives env default (v.getD default) := by
  unfold Setting.read at h
  split at h
  · rename_i he
    cases h
    exact .unset he
  · rename_i e he
    dsimp only at h
    split at h
    · cases h
    · rename_i hok
      cases h
      simp only [Bool.not_eq_true, Bool.or_eq_false_iff, Bool.not_eq_false', decide_eq_false_iff_not, and_assoc] at hok
      obtain ⟨hspelled, hlow, hhigh⟩ := (strtol_accepts hs).1 ⟨hok, rfl⟩
      exact .set he hspelled hlow hhigh

theorem Setting.Gives.read {s : Setting} (hs : s.Bounded) {env : StartEnv} {default n : Nat} (h : s.Gives env default n) :
    ∃ v, (s.read env).result = some v ∧ v.getD default = n := by
  unfold Setting.read
  cases h with
  | unset he =>
    rw [he]
    exact ⟨none, rfl, rfl⟩
  | set he hspelled hlow hhigh =>
    obtain ⟨⟨hrest, hmin, hmax⟩, rfl⟩ := (strtol_accepts hs).2 ⟨hspelled, hlow, hhigh⟩
    refine ⟨some _, ?_, rfl⟩
    rw [he]
    dsimp only
    rw [if_neg (by simp [hrest, hmin, hmax])]
    rfl

/-! ## The stages -/

variable {env : StartEnv}

theorem startLogger_result {logging : Bool} : (startLogger env).result = some logging ↔
    logging = env.logOpens ((env.configured "PROXY_LOG_FILE").getD defaultLogPath) := by
  unfold startLogger
  cases hopen : env.logOpens ((env.configured "PROXY_LOG_FILE").getD defaultLogPath) <;>
    simp [hopen, Stage.print_bind_result, Stage.pure_result, eq_comm]

theorem loadFile_missing {alloc : Nat → Bool} {file : Option (List Byte)} {st : LoadState} {missing : Bool}
    (h : loadFile alloc file = some (st, missing)) : missing = file.isNone := by
  cases file with
  | none =>
    cases h
    rfl
  | some file =>
    obtain ⟨_, -, heq⟩ := Option.map_eq_some_iff.1 h
    cases heq
    rfl

/-- The report says which of the files is not there. -/
theorem policyLoad_missing {files : PolicyFiles} {p : Policy} {report : PolicyLoadReport}
    (h : policyLoad files = some (p, report)) :
    report.blockFileMissing = files.block.isNone ∧ report.allowFileMissing = files.allow.isNone := by
  unfold policyLoad at h
  obtain ⟨⟨block, blockMissing⟩, hblock, h⟩ := Option.bind_eq_some_iff.1 h
  obtain ⟨⟨allow, allowMissing⟩, hallow, h⟩ := Option.bind_eq_some_iff.1 h
  cases h
  exact ⟨loadFile_missing hblock, loadFile_missing hallow⟩

/-- A file a variable names. -/
def StartEnv.HasFile (env : StartEnv) (var : String) : Prop :=
  ∀ path, env.configured var = some path → (env.file path).isSome = true

theorem hasFile_iff (var : String) (default : List Byte) : env.HasFile var ↔
    ((env.file ((env.configured var).getD default)).isNone && (env.configured var).isSome) = false := by
  unfold StartEnv.HasFile
  cases env.configured var with
  | none => simp
  | some path => simp [Option.isSome_iff_ne_none]

theorem startPolicy_result {p : Policy} : (startPolicy env).result = some p ↔
    (∃ report, policyLoad env.policyFiles = some (p, report)) ∧ env.HasFile "PROXY_BLOCKLIST" ∧
      env.HasFile "PROXY_ALLOWLIST" := by
  rw [hasFile_iff "PROXY_BLOCKLIST" defaultBlocklistPath, hasFile_iff "PROXY_ALLOWLIST" defaultAllowlistPath]
  unfold startPolicy
  cases hload : policyLoad env.policyFiles with
  | none => simp [Stage.exitFailure_result]
  | some loaded =>
    obtain ⟨p', report⟩ := loaded
    obtain ⟨hblock, hallow⟩ := policyLoad_missing hload
    simp only [hblock, hallow, StartEnv.policyFiles]
    split
    · rename_i hmissing
      simp only [Bool.or_eq_true] at hmissing
      simp only [Stage.exitFailure_result, reduceCtorEq, Option.some.injEq, Prod.mk.injEq, false_iff, not_and]
      intro _ hb ha
      simp [hb, ha] at hmissing
    · rename_i hthere
      simp only [Bool.not_eq_true, Bool.or_eq_false_iff] at hthere
      simp [hthere]

theorem startAllowPrivate_result {allowPrivate : Bool} : (startAllowPrivate env).result = some allowPrivate ↔
    (allowPrivate = true ↔ env.getenv "PROXY_UNSAFE_ALLOW_PRIVATE_NETWORKS" = some (bytes "1")) := by
  unfold startAllowPrivate
  split
  · rename_i h
    simp [h, Stage.print_bind_result, Stage.pure_result, eq_comm]
  · rename_i h
    simp [h, Stage.pure_result, eq_comm]

theorem bounded_settings : ∀ s ∈ [connectTimeoutSetting, readTimeoutSetting, portSetting, connectPortSetting,
    tunnelIdleSetting, reputationTimeoutSetting, reputationTtlSetting], s.Bounded := by
  simp only [List.mem_cons, List.not_mem_nil, or_false]
  rintro s (rfl | rfl | rfl | rfl | rfl | rfl | rfl) <;> exact ⟨by decide, by decide⟩

theorem Setting.Gives.pos {s : Setting} {default n : Nat} (h : s.Gives env default n) (hs : s.Bounded) (hd : 1 ≤ default) :
    1 ≤ n := by
  cases h with
  | unset _ => exact hd
  | set _ _ hlow _ => exact le_trans hs.low hlow

/-- A setting that is not set is read as 0, which leaves the default. -/
theorem Setting.read_timeout {s : Setting} (hs : s.Bounded) {v : Option Nat} (h : (s.read env).result = some v)
    (default : Nat) : (if v.getD 0 ≥ 1 then v.getD 0 else default) = v.getD default := by
  cases v with
  | none => rfl
  | some n =>
    have hpos : 1 ≤ n := (Setting.read_gives hs h 1).pos hs (Nat.le_refl 1)
    exact if_pos hpos

theorem startTimeouts_result {t : Timeouts} : (startTimeouts env).result = some t ↔
    connectTimeoutSetting.Gives env defaultConnectTimeoutSeconds t.connectSeconds ∧
      readTimeoutSetting.Gives env defaultReadTimeoutSeconds t.readSeconds := by
  have hconnect := bounded_settings connectTimeoutSetting (by simp)
  have hread := bounded_settings readTimeoutSetting (by simp)
  simp only [startTimeouts, Stage.bind_result_eq_some, Stage.pure_result, Option.some.injEq]
  constructor
  · rintro ⟨v, hv, w, hw, rfl⟩
    simp only [originClientSetTimeouts, Setting.read_timeout hconnect hv, Setting.read_timeout hread hw]
    exact ⟨Setting.read_gives hconnect hv _, Setting.read_gives hread hw _⟩
  · rintro ⟨hc, hr⟩
    obtain ⟨v, hv, hc⟩ := hc.read hconnect
    obtain ⟨w, hw, hr⟩ := hr.read hread
    refine ⟨v, hv, w, hw, ?_⟩
    simp only [originClientSetTimeouts, Setting.read_timeout hconnect hv, Setting.read_timeout hread hw, hc, hr]

/-- The reputation module is off, or on with a fixture that was loaded. -/
inductive Provides (env : StartEnv) : Provided → Prop
  | off : env.configured "PROXY_REPUTATION_FIXTURE" = none → Provides env {}
  | on {path : List Byte} {d : FixtureData} {timeoutMs ttl : Nat} :
      env.configured "PROXY_REPUTATION_FIXTURE" = some path →
      reputationFixtureLoad (env.file path) env.fixtureCalloc env.fixtureAlloc = some d →
      reputationTimeoutSetting.Gives env 1500 timeoutMs → reputationTtlSetting.Gives env 300 ttl →
      Provides env { fixture := some d, reputation := reputationInit {} 0 timeoutMs ttl }

theorem startFixture_result {path : List Byte} {timeoutMs ttl : Nat} {r : Provided} (hpos : 1 ≤ timeoutMs) :
    (startFixture env path timeoutMs ttl).result = some r ↔
      ∃ d, reputationFixtureLoad (env.file path) env.fixtureCalloc env.fixtureAlloc = some d ∧
        r = { fixture := some d, reputation := reputationInit {} 0 timeoutMs ttl } := by
  unfold startFixture
  rw [reputationInitChecked, if_neg (by omega)]
  cases reputationFixtureLoad (env.file path) env.fixtureCalloc env.fixtureAlloc with
  | none => simp [Stage.exitFailure_result]
  | some d => simp [eq_comm]

theorem startReputation_result {r : Provided} : (startReputation env).result = some r ↔ Provides env r := by
  have htimeout := bounded_settings reputationTimeoutSetting (by simp)
  have httl := bounded_settings reputationTtlSetting (by simp)
  unfold startReputation
  cases hpath : env.configured "PROXY_REPUTATION_FIXTURE" with
  | none =>
    constructor
    · intro h
      cases h
      exact .off hpath
    · intro h
      cases h with
      | off _ => rfl
      | on hpath' => cases hpath.symm.trans hpath'
  | some path =>
    simp only [Stage.bind_result_eq_some]
    constructor
    · rintro ⟨v, hv, w, hw, h⟩
      have hgives := Setting.read_gives htimeout hv 1500
      obtain ⟨d, hload, rfl⟩ := (startFixture_result (hgives.pos htimeout (by decide))).1 h
      exact .on hpath hload hgives (Setting.read_gives httl hw 300)
    · intro h
      cases h with
      | off hpath' => cases hpath.symm.trans hpath'
      | on hpath' hload hgives hgives' =>
        cases hpath.symm.trans hpath'
        obtain ⟨v, hv, rfl⟩ := hgives.read htimeout
        obtain ⟨w, hw, rfl⟩ := hgives'.read httl
        exact ⟨v, hv, w, hw, (startFixture_result (hgives.pos htimeout (by decide))).2 ⟨_, hload, rfl⟩⟩

theorem cacheInit_unallocated (s : CacheState) (n t m : Nat) : cacheInit s n t m false = (s, false) := by
  simp [cacheInit]

theorem startCache_result {cache : CacheState} : (startCache env).result = some cache ↔
    cache = if env.getenv "PROXY_CACHE" = some (bytes "0") ∨ env.cacheAlloc = false then {}
      else (cacheInit {} cacheDefaultMaxEntries cacheDefaultMaxTotalBytes cacheDefaultMaxEntryBytes true).1 := by
  unfold startCache
  by_cases hoff : env.getenv "PROXY_CACHE" = some (bytes "0")
  · rw [if_pos hoff, if_pos (.inl hoff)]
    exact ⟨fun h => (Option.some.inj h).symm, fun h => congrArg some h.symm⟩
  · rw [if_neg hoff]
    cases halloc : env.cacheAlloc with
    | false =>
      rw [if_pos (.inr rfl), cacheInit_unallocated]
      exact ⟨fun h => (Option.some.inj h).symm, fun h => congrArg some h.symm⟩
    | true =>
      rw [if_neg (by simp [hoff])]
      exact ⟨fun h => (Option.some.inj h).symm, fun h => congrArg some h.symm⟩

theorem createListeningSocket_result {port : Nat} {u : Unit} : (createListeningSocket env port).result = some u ↔
    env.socket = true ∧ env.setsockopt = true ∧ env.bind port = true ∧ env.listen = true := by
  unfold createListeningSocket
  cases env.socket <;> cases env.setsockopt <;> cases env.bind port <;> cases env.listen <;>
    simp [Stage.exitFailure_result, Stage.pure_result]

/-! ## The whole -/

/-- What the environment asks for, and nothing less, is what has been set up. -/
structure Configured (env : StartEnv) (s : Started) : Prop where
  logging : s.logging = env.logOpens ((env.configured "PROXY_LOG_FILE").getD defaultLogPath)
  policy : ∃ report, policyLoad env.policyFiles = some (s.policy, report)
  blocklist : env.HasFile "PROXY_BLOCKLIST"
  allowlist : env.HasFile "PROXY_ALLOWLIST"
  allowPrivate : s.globals.allowPrivate = true ↔ env.getenv "PROXY_UNSAFE_ALLOW_PRIVATE_NETWORKS" = some (bytes "1")
  connectTimeout : connectTimeoutSetting.Gives env 5 s.timeouts.connectSeconds
  readTimeout : readTimeoutSetting.Gives env 10 s.timeouts.readSeconds
  port : portSetting.Gives env 8080 s.listenPort
  connectPort : connectPortSetting.Gives env 443 s.globals.connectPort
  tunnelIdle : tunnelIdleSetting.Gives env 120 s.globals.tunnelIdleSeconds
  reputation : Provides env s.provided
  cache : s.cache = if env.getenv "PROXY_CACHE" = some (bytes "0") ∨ env.cacheAlloc = false then {}
    else (cacheInit {} cacheDefaultMaxEntries cacheDefaultMaxTotalBytes cacheDefaultMaxEntryBytes true).1
  listening : env.socket = true ∧ env.setsockopt = true ∧ env.bind s.listenPort = true ∧ env.listen = true

theorem startup_result {s : Started} : (startup env).result = some s ↔ Configured env s := by
  have hport := bounded_settings portSetting (by simp)
  have hconnect := bounded_settings connectPortSetting (by simp)
  have hidle := bounded_settings tunnelIdleSetting (by simp)
  simp only [startup, Stage.bind_result_eq_some, Stage.print_bind_result, Stage.pure_result, startLogger_result,
    startPolicy_result, startAllowPrivate_result, startTimeouts_result, startReputation_result, startCache_result,
    createListeningSocket_result, Option.some.injEq]
  constructor
  · rintro ⟨logging, hlogging, p, ⟨hload, hblock, hallow⟩, allowPrivate, hprivate, t, ⟨hconn, hread⟩, port, hp,
      cport, hcp, idle, hi, provided, hprovided, cache, hcache, _, hlistening, rfl⟩
    exact ⟨hlogging, hload, hblock, hallow, hprivate, hconn, hread, Setting.read_gives hport hp _,
      Setting.read_gives hconnect hcp _, Setting.read_gives hidle hi _, hprovided, hcache, hlistening⟩
  · intro h
    obtain ⟨port, hp, hport⟩ := h.port.read hport
    obtain ⟨cport, hcp, hcport⟩ := h.connectPort.read hconnect
    obtain ⟨idle, hi, hidle⟩ := h.tunnelIdle.read hidle
    obtain ⟨logging, policy, timeouts, globals, listenPort, provided, cache⟩ := s
    obtain ⟨allowPrivate, connectPort, tunnelIdleSeconds⟩ := globals
    simp only at hport hcport hidle
    subst hport hcport hidle
    exact ⟨_, h.logging, _, ⟨h.policy, h.blocklist, h.allowlist⟩, _, h.allowPrivate, _,
      ⟨h.connectTimeout, h.readTimeout⟩, _, hp, _, hcp, _, hi, _, h.reputation, _, h.cache, (), h.listening, rfl⟩

/-! ## Giving up -/

def Printed.isError : Printed → Bool
  | .out _ => false
  | .err _ | .perror _ => true

/-- Nobody is left without a word about why the proxy is not there. -/
def Stage.Explains {α : Type} (x : Stage α) : Prop :=
  x.result = none → ∃ p, x.printed.getLast? = some p ∧ p.isError = true

namespace Stage.Explains

variable {α β : Type}

theorem of_some {x : Stage α} {a : α} (h : x.result = some a) : x.Explains := fun hnone => by
  rw [h] at hnone
  cases hnone

theorem exitFailure {p : Printed} (h : p.isError = true) : (Stage.exitFailure p : Stage α).Explains := fun _ =>
  ⟨p, rfl, h⟩

theorem bind {x : Stage α} {f : α → Stage β} (hx : x.Explains) (hf : ∀ a, (f a).Explains) : (x >>= f).Explains := by
  obtain ⟨printed, _ | a⟩ := x
  · exact fun _ => hx rfl
  · intro hnone
    obtain ⟨p, hp, herr⟩ := hf a hnone
    refine ⟨p, ?_, herr⟩
    change (printed ++ (f a).printed).getLast? = some p
    rw [List.getLast?_append, hp]
    rfl

end Stage.Explains

theorem Setting.read_explains (s : Setting) : (s.read env).Explains := by
  unfold Setting.read
  split
  · exact .of_some rfl
  · dsimp only
    split
    · exact .exitFailure rfl
    · exact .of_some rfl

theorem startPolicy_explains : (startPolicy env).Explains := by
  unfold startPolicy
  split
  · exact .exitFailure rfl
  · split
    · exact .exitFailure rfl
    · exact .of_some rfl

theorem startReputation_explains : (startReputation env).Explains := by
  unfold startReputation
  split
  · exact .of_some rfl
  · refine .bind (Setting.read_explains _) fun timeoutMs => .bind (Setting.read_explains _) fun ttl => ?_
    unfold startFixture
    split
    · exact .of_some rfl
    · exact .exitFailure rfl

theorem createListeningSocket_explains (port : Nat) : (createListeningSocket env port).Explains := by
  unfold createListeningSocket
  split
  · exact .exitFailure rfl
  split
  · exact .exitFailure rfl
  split
  · exact .exitFailure rfl
  split
  · exact .exitFailure rfl
  · exact .of_some rfl

theorem startAllowPrivate_explains : (startAllowPrivate env).Explains := by
  unfold startAllowPrivate
  split <;> exact .of_some rfl

theorem startTimeouts_explains : (startTimeouts env).Explains :=
  .bind (Setting.read_explains _) fun _ => .bind (Setting.read_explains _) fun _ => .of_some rfl

theorem startup_explains : (startup env).Explains := by
  refine .bind (.of_some (startLogger_result.2 rfl)) fun _ => .bind startPolicy_explains fun _ => ?_
  refine .bind startAllowPrivate_explains fun _ => .bind startTimeouts_explains fun _ => ?_
  refine .bind (Setting.read_explains _) fun _ => .bind (Setting.read_explains _) fun _ => .bind (Setting.read_explains _)
    fun _ => .bind (.of_some rfl) fun _ => .bind startReputation_explains fun _ => ?_
  refine .bind (.of_some (startCache_result.2 rfl)) fun _ => .bind (createListeningSocket_explains _) fun _ => ?_
  exact .of_some rfl

/-- A number behind blanks and a sign is taken, one with a unit is not. -/
example :
    let env : StartEnv := { getenv := fun v => if v = "PROXY_PORT" then some (bytes " +3128") else none
                            file := fun _ => some [], logOpens := fun _ => true }
    (startup env).result.map Started.listenPort = some 3128 := by decide +kernel

example :
    let env : StartEnv := { getenv := fun v => if v = "PROXY_TUNNEL_IDLE_SECONDS" then some (bytes "60s") else none
                            file := fun _ => some [], logOpens := fun _ => true }
    (startup env).printed.getLast? = some (.err (bytes "proxy: error: PROXY_TUNNEL_IDLE_SECONDS must be 1-3600\n")) := by
  decide +kernel

end SecureProxy
