/-
What a provider is told: `normalise_host` as a gate, and the strings that the
checks of a run hand to a provider's lookup.

The gate takes one dot off the end before it looks for an empty label, so a
name with two dots at its end leaves with one (`repRun_handed_iff`). The
address test of `check_destination` is made before that dot is taken off
(`checkDestination_handed_iff`).
-/
import SecureProxy.Destination
import SecureProxy.Lib.Lines
import SecureProxy.PolicyFacts
import SecureProxy.ReputationCalls

namespace SecureProxy

open Bytes Machine Progs

/-! ## Bare hostnames -/

/-- A byte of `[a-z0-9._-]`. -/
def isBareByte (b : Byte) : Bool := isLower b || isDigit b || b == ch '.' || b == ch '_' || b == ch '-'

/-- A hostname and nothing else. -/
structure BareHost (s : List Byte) : Prop where
  nonempty : s ≠ []
  short : s.length ≤ repHostMax
  bytes : ∀ b ∈ s, isBareByte b = true
  labels : ∀ label ∈ s.splitOn (ch '.'), label ≠ []

theorem isBareByte_toLower {b : Byte} : isHostByte b = true → isBareByte (toLower b) = true :=
  forall_byte (P := fun b => isHostByte b = true → isBareByte (toLower b) = true) (by decide +kernel) b

theorem toLower_bare {b : Byte} : isBareByte b = true → isHostByte b = true ∧ toLower b = b :=
  forall_byte (P := fun b => isBareByte b = true → isHostByte b = true ∧ toLower b = b) (by decide +kernel) b

theorem isHostByte_of_bare {b : Byte} : isBareByte (toLower b) = true → isHostByte b = true :=
  forall_byte (P := fun b => isBareByte (toLower b) = true → isHostByte b = true) (by decide +kernel) b

theorem toLower_eq_dot {b : Byte} : toLower b = ch '.' ↔ b = ch '.' :=
  forall_byte (P := fun b => toLower b = ch '.' ↔ b = ch '.') (by decide +kernel) b

theorem labels_head (s : List Byte) : (∀ label ∈ s.splitOn (ch '.'), label ≠ []) ↔
    s ≠ [] ∧ s.head? ≠ some (ch '.') ∧ ∀ label ∈ (s.splitOn (ch '.')).tail, label ≠ [] := by
  cases s with
  | nil => simp
  | cons c s =>
    rw [List.splitOn_cons_eq_if_modifyHead]
    by_cases hc : c = ch '.'
    · simp [hc]
    · obtain ⟨l, ls, hls⟩ := List.exists_cons_of_ne_nil (List.splitOn_ne_nil (ch '.') s)
      simp [hc, hls]

theorem labels_tail (s : List Byte) : (∀ label ∈ (s.splitOn (ch '.')).tail, label ≠ []) ↔
    s.getLast? ≠ some (ch '.') ∧ hasDoubleDot s = false := by
  induction s with
  | nil => simp [hasDoubleDot]
  | cons c s ih =>
    have htail : (∀ label ∈ ((c :: s).splitOn (ch '.')).tail, label ≠ []) ↔
        (c = ch '.' → s ≠ [] ∧ s.head? ≠ some (ch '.')) ∧ ∀ label ∈ (s.splitOn (ch '.')).tail, label ≠ [] := by
      rw [List.splitOn_cons_eq_if_modifyHead]
      by_cases hc : c = ch '.'
      · have := labels_head s
        simp only [hc, beq_self_eq_true, if_true, List.tail_cons, forall_const, and_assoc]
        exact this
      · obtain ⟨l, ls, hls⟩ := List.exists_cons_of_ne_nil (List.splitOn_ne_nil (ch '.') s)
        simp [hc, hls]
    rw [htail, ih]
    cases s with
    | nil => simp [hasDoubleDot]
    | cons d s =>
      simp only [hasDoubleDot, List.getLast?_cons_cons, List.head?_cons]
      by_cases hc : c = ch '.' <;> by_cases hd : d = ch '.' <;> simp [hc, hd]

/-- No label is empty: no dot at either end, and no two in a row. -/
theorem labels_iff {s : List Byte} (hne : s ≠ []) : (∀ label ∈ s.splitOn (ch '.'), label ≠ []) ↔
    s.head? ≠ some (ch '.') ∧ hasDoubleDot s = false ∧ s.getLast? ≠ some (ch '.') := by
  rw [labels_head, labels_tail]
  simp only [ne_eq, hne, not_false_eq_true, true_and, and_congr_right_iff]
  exact fun _ => and_comm

theorem hasDoubleDot_concat (s : List Byte) :
    hasDoubleDot (s ++ [ch '.']) = false ↔ hasDoubleDot s = false ∧ s.getLast? ≠ some (ch '.') := by
  fun_induction hasDoubleDot s with
  | case1 a b s ih =>
    simp only [List.cons_append] at ih
    simp only [List.cons_append, hasDoubleDot, Bool.or_eq_false_iff, ih, List.getLast?_cons_cons, and_assoc]
  | case2 s hs =>
    match s with
    | [] => simp [hasDoubleDot]
    | [c] => simp [hasDoubleDot]
    | a :: b :: s => exact absurd rfl (hs a b s)

/-! ## The gate -/

/-- What is left of a host without a dot at its end. -/
def undotted (host : List Byte) : List Byte := if host.getLast? = some (ch '.') then host.dropLast else host

/-- What passes the gate, and as what. -/
structure PassesGate (host s : List Byte) : Prop where
  eq : s = (undotted host).map toLower
  nonempty : undotted host ≠ []
  short : (undotted host).length ≤ repHostMax
  bytes : ∀ b ∈ undotted host, isHostByte b = true
  head : s.head? ≠ some (ch '.')
  dots : hasDoubleDot s = false

theorem normaliseHost_iff {host s : List Byte} : normaliseHost host = some s ↔ PassesGate host s := by
  simp only [normaliseHost, show (if host.getLast? = some (ch '.') then host.dropLast else host) = undotted host from rfl]
  constructor
  · intro h
    split at h
    · cases h
    · rename_i hlen
      simp only [Bool.or_eq_true, List.isEmpty_iff, decide_eq_true_eq, not_or, Nat.not_lt] at hlen
      split at h
      · cases h
      · rename_i hbytes
        simp only [List.any_eq_true, Bool.not_eq_true', not_exists, not_and, Bool.not_eq_false] at hbytes
        split at h
        · cases h
        · rename_i hdots
          simp only [Bool.or_eq_true, decide_eq_true_eq, not_or, Bool.not_eq_true] at hdots
          cases h
          exact ⟨rfl, hlen.1, hlen.2, hbytes, hdots.1, hdots.2⟩
  · intro h'
    obtain ⟨rfl, hne, hshort, hbytes, hhead, hdots⟩ := h'
    have hany : ((undotted host).any fun c => !isHostByte c) = false := by
      simpa using hbytes
    rw [if_neg (by simpa using ⟨hne, hshort⟩), hany, if_neg (by simp), if_neg ?_]
    simp only [Bool.or_eq_true, decide_eq_true_eq, hhead, hdots]
    simp

/-- A name with the two dots at its end that the gate does not see. -/
def DoubleDotted (host : List Byte) : Prop :=
  ∃ name, host = name ++ [ch '.', ch '.'] ∧ BareHost (name.map toLower) ∧ name.length < repHostMax

theorem PassesGate.bare_iff {host s : List Byte} (h : PassesGate host s) : BareHost s ↔ s.getLast? ≠ some (ch '.') := by
  have hne : s ≠ [] := by
    rw [h.eq]
    simpa using h.nonempty
  have hbytes : ∀ b ∈ s, isBareByte b = true := by
    intro b hb
    rw [h.eq] at hb
    obtain ⟨c, hc, rfl⟩ := List.mem_map.1 hb
    exact isBareByte_toLower (h.bytes c hc)
  constructor
  · intro hbare
    exact ((labels_iff hne).1 hbare.labels).2.2
  · intro hlast
    refine ⟨hne, ?_, hbytes, (labels_iff hne).2 ⟨h.head, h.dots, hlast⟩⟩
    rw [h.eq, List.length_map]
    exact h.short

theorem undotted_concat (name : List Byte) : undotted (name ++ [ch '.']) = name := by
  simp [undotted]

/-- A dot that is left at the end had another one after it. -/
theorem eq_of_undotted {host name : List Byte} (h : undotted host = name ++ [ch '.']) :
    host = name ++ [ch '.'] ++ [ch '.'] := by
  unfold undotted at h
  split at h
  · rename_i hend
    obtain ⟨front, rfl⟩ := List.getLast?_eq_some_iff.1 hend
    rw [List.dropLast_concat] at h
    rw [h]
  · rename_i hend
    rw [h] at hend
    exact absurd List.getLast?_concat hend

theorem PassesGate.doubleDotted {host s : List Byte} (h : PassesGate host s) (hbare : ¬ BareHost s) : DoubleDotted host := by
  have hlast : s.getLast? = some (ch '.') := by
    rw [h.bare_iff] at hbare
    exact not_not.1 hbare
  obtain ⟨b, hb, hdot⟩ : ∃ b, (undotted host).getLast? = some b ∧ toLower b = ch '.' := by
    rw [h.eq, List.getLast?_map] at hlast
    exact Option.map_eq_some_iff.1 hlast
  rw [toLower_eq_dot] at hdot
  subst hdot
  obtain ⟨name, hname⟩ := List.getLast?_eq_some_iff.1 hb
  have hs : s = name.map toLower ++ [ch '.'] := by
    rw [h.eq, hname, List.map_append]
    rfl
  have hne : name.map toLower ≠ [] := by
    intro hnil
    rw [hs, hnil] at h
    exact h.head rfl
  have hshort : name.length < repHostMax := by
    have := h.short
    rw [hname, List.length_append, List.length_singleton] at this
    omega
  obtain ⟨hdots, hend⟩ := (hasDoubleDot_concat _).1 (hs ▸ h.dots)
  have hhead := h.head
  rw [hs, List.head?_append_of_ne_nil _ hne] at hhead
  refine ⟨name, by simpa using eq_of_undotted hname, ⟨hne, ?_, ?_, (labels_iff hne).2 ⟨hhead, hdots, hend⟩⟩, hshort⟩
  · rw [List.length_map]
    omega
  · intro b hm
    obtain ⟨c, hc, rfl⟩ := List.mem_map.1 hm
    exact isBareByte_toLower (h.bytes c (hname ▸ List.mem_append_left _ hc))

theorem passesGate_doubleDotted {name : List Byte} (hbare : BareHost (name.map toLower)) (hlen : name.length < repHostMax) :
    PassesGate (name ++ [ch '.', ch '.']) (name.map toLower ++ [ch '.']) := by
  obtain ⟨hhead, hdots, hend⟩ := (labels_iff hbare.nonempty).1 hbare.labels
  have hundotted : undotted (name ++ [ch '.', ch '.']) = name ++ [ch '.'] := by
    rw [← undotted_concat (name ++ [ch '.']), List.append_assoc]
    rfl
  have hdot : toLower (ch '.') = ch '.' := by decide
  refine ⟨by simp [hundotted, hdot], by simp [hundotted], ?_, ?_, ?_, (hasDoubleDot_concat _).2 ⟨hdots, hend⟩⟩
  · rw [hundotted, List.length_append, List.length_singleton]
    omega
  · intro b hb
    rw [hundotted] at hb
    rcases List.mem_append.1 hb with hb | hb
    · exact isHostByte_of_bare (hbare.bytes _ (List.mem_map_of_mem hb))
    · rw [List.mem_singleton.1 hb]
      decide
  · rwa [List.head?_append_of_ne_nil _ hbare.nonempty]

/-- **The gate lets a string through that is not a bare hostname** exactly
when it gets one with two dots at its end. -/
theorem normaliseHost_not_bare {host : List Byte} : (∃ s, normaliseHost host = some s ∧ ¬ BareHost s) ↔ DoubleDotted host := by
  simp only [normaliseHost_iff]
  constructor
  · intro h'
    obtain ⟨s, h, hbare⟩ := h'
    exact h.doubleDotted hbare
  · intro h'
    obtain ⟨name, rfl, hbare, hlen⟩ := h'
    have hgate := passesGate_doubleDotted hbare hlen
    refine ⟨_, hgate, ?_⟩
    rw [hgate.bare_iff]
    simp

/-! ## The provider -/

/-- What a check hands to a provider has passed the gate. -/
theorem Handed.norm {actions : List RepAction} {i : Nat} {host s : List Byte} (h : Handed actions i s)
    (hhost : (callHosts actions)[i]? = some host) : normaliseHost host = some s := by
  obtain ⟨pre, a, post, rfl, hasked⟩ := h
  rcases repStep_act (repRun pre) i a with heq | ⟨c, m, hc, hm, heq⟩
  · rw [heq] at hasked
    cases hasked
  · rw [heq] at hasked
    obtain ⟨host', hhost', hinv⟩ := repRun_callInv pre i c hc
    rw [callHosts_append, List.getElem?_append_left (List.getElem?_eq_some_iff.1 hhost').1, hhost'] at hhost
    cases hhost
    cases hm with
    | @start r j helper =>
      cases hasked
      exact (hinv.job j rfl).2.1
    | _ => cases hasked

/-- An empty cache knows no host. -/
theorem cacheFind_zeroed (n : Nat) (host : List Byte) : cacheFind (List.replicate n .zero) host = none := by
  refine List.findIdx?_eq_none_iff.2 fun e he => ?_
  rw [List.eq_of_mem_replicate he]
  rfl

/-- A host that passes the gate is handed on by the first check. -/
theorem firstCheck_handed {host s : List Byte} (h : normaliseHost host = some s) :
    (callHosts (firstCheck host))[0]? = some host ∧ Handed (firstCheck host) 0 s := by
  refine ⟨rfl, (firstCheck host).dropLast, .start true, [], rfl, ?_⟩
  simp [firstCheck, repRun, run, repStep, callStep, enterStep, prepareStep, startStep, checkEnter, checkEnter.reserve,
    reputationInit, reputationMaxInflight, h, cacheFind_zeroed]

/-- **Every string handed to a provider for a check of `host` is a bare
hostname**, in every run, unless `host` is one with two dots at its end. -/
theorem repRun_handed_iff (host : List Byte) :
    (∀ actions i s, (callHosts actions)[i]? = some host → Handed actions i s → BareHost s) ↔ ¬ DoubleDotted host := by
  rw [← normaliseHost_not_bare]
  constructor
  · rintro h ⟨s, hs, hbare⟩
    obtain ⟨hhost, hhanded⟩ := firstCheck_handed hs
    exact hbare (h _ _ _ hhost hhanded)
  · intro h actions i s hhost hhanded
    by_contra hbare
    exact h ⟨s, hhanded.norm hhost, hbare⟩

/-- `a..` leaves as `a.`. -/
theorem repRun_handed_dotted :
    let actions := firstCheck (bytes "a..")
    (callHosts actions)[0]? = some (bytes "a..") ∧ Handed actions 0 (bytes "a.") ∧ ¬ BareHost (bytes "a.") := by
  obtain ⟨hhost, hhanded⟩ := @firstCheck_handed (bytes "a..") (bytes "a.") (by decide)
  refine ⟨hhost, hhanded, fun h => ?_⟩
  exact h.labels [] (by decide) rfl

/-! ## Addresses and local names -/

/-- `check_destination` asks about its own host, and only where the rules allow
it and it is neither a local name nor an address. -/
theorem checkDestination_asks {ok : (q : Query) → q.Answer → Prop} {env : ClientEnv} {host h : List Byte} {o o' : Outcome}
    {t : Trace} {r : ReputationResult} (hrun : Runs ok (checkDestination env host o) t o')
    (hasked : .asked (.reputationCheck h) r ∈ t) :
    h = host ∧ ok (.policyCheckHost host) .allow ∧ hostnameIsLocalName host = false ∧
      env.hostIsNumericAddress host = false := by
  simp only [checkDestination, Query.ask, runs_bind_iff, runs_query_iff] at hrun
  obtain ⟨t₁, policy, t₂, ⟨hpolicy, rfl⟩, hrun, rfl⟩ := hrun
  split at hrun
  · obtain ⟨rfl, -⟩ := runs_pure_iff.1 hrun
    simp at hasked
  · rename_i hallow
    obtain rfl : policy = .allow := by simpa using hallow
    simp only [checkReputation, Query.ask, runs_bind_iff, runs_query_iff] at hrun
    obtain ⟨t₃, on, t₄, ⟨-, rfl⟩, hrun, rfl⟩ := hrun
    split at hrun
    · rename_i hname
      simp only [runs_bind_iff, runs_query_iff, runs_pure_iff] at hrun
      obtain ⟨t₅, r', t₆, ⟨-, rfl⟩, ⟨rfl, -⟩, rfl⟩ := hrun
      simp only [Bool.and_eq_true, Bool.not_eq_true'] at hname
      refine ⟨?_, hpolicy, hname.1.2, hname.2⟩
      simp at hasked
      exact hasked.1
    · obtain ⟨rfl, -⟩ := runs_pure_iff.1 hrun
      simp at hasked

/-- Under the rules `p`, a `check_destination` of `host` can lead to a call of
a provider's lookup with `s`. -/
def ProviderAsked (p : Policy) (env : ClientEnv) (host : List Byte) (o : Outcome) (s : List Byte) : Prop :=
  ∃ t o' h r, Runs (PolicyAnswers p) (checkDestination env host o) t o' ∧ .asked (.reputationCheck h) r ∈ t ∧
    ∃ actions i, (callHosts actions)[i]? = some h ∧ Handed actions i s

theorem providerAsked_iff {p : Policy} {env : ClientEnv} {host s : List Byte} {o : Outcome} :
    ProviderAsked p env host o s ↔ policyCheckHost p host = .allow ∧ hostnameIsLocalName host = false ∧
      env.hostIsNumericAddress host = false ∧ normaliseHost host = some s := by
  constructor
  · intro h'
    obtain ⟨t, o', h, r, hrun, hasked, actions, i, hhost, hhanded⟩ := h'
    obtain ⟨rfl, hallow, hlocal, hnumeric⟩ := checkDestination_asks hrun hasked
    exact ⟨Eq.symm hallow, hlocal, hnumeric, hhanded.norm hhost⟩
  · intro h'
    obtain ⟨hallow, hlocal, hnumeric, hnorm⟩ := h'
    obtain ⟨hhost, hhanded⟩ := firstCheck_handed hnorm
    have hrun : Runs (PolicyAnswers p) (checkDestination env host o)
        [.asked (.policyCheckHost host) .allow, .asked .reputationIsEnabled true,
          .asked (.reputationCheck host) ⟨.safe, .ok⟩] (o.noteReputation ⟨.safe, .ok⟩) := by
      simp only [checkDestination, checkReputation, Query.ask, runs_bind_iff, runs_query_iff]
      refine ⟨_, PolicyDecision.allow, _, ⟨Eq.symm hallow, rfl⟩, ?_, rfl⟩
      rw [if_neg (by simp)]
      simp only [runs_bind_iff, runs_query_iff]
      refine ⟨_, true, _, ⟨trivial, rfl⟩, ?_, rfl⟩
      rw [if_pos (by simp [hlocal, hnumeric])]
      simp only [runs_bind_iff, runs_query_iff, runs_pure_iff]
      exact ⟨_, ⟨.safe, .ok⟩, _, ⟨trivial, rfl⟩, ⟨rfl, rfl⟩, rfl⟩
    exact ⟨_, _, host, ⟨.safe, .ok⟩, hrun, by simp, _, _, hhost, hhanded⟩

theorem PassesGate.host {host s : List Byte} (h : PassesGate host s) :
    ∃ name, s = name.map toLower ∧ (∀ b ∈ name, isHostByte b = true) ∧ name.length ≤ repHostMax ∧
      (host = name ∨ host = name ++ [ch '.']) := by
  refine ⟨undotted host, h.eq, h.bytes, h.short, ?_⟩
  unfold undotted
  split
  · rename_i hend
    obtain ⟨name, rfl⟩ := List.getLast?_eq_some_iff.1 hend
    simp
  · exact .inl rfl

theorem normalizeHost_short {host : List Byte} (hcolon : ch ':' ∉ host) (hlen : host.length ≤ repHostMax + 1) :
    normalizeHost host (policyHostMax + 2) = (host.map toLower).rdropWhile isDot := by
  unfold normalizeHost
  rw [Lines.takeWhile_bare hcolon, List.take_of_length_le (by simpa [policyHostMax, repHostMax] using hlen)]

/-- The dot at its end does not make a name local or not: `normalize_host`
takes off all of them. -/
theorem PassesGate.local_eq {host s : List Byte} (h : PassesGate host s) :
    hostnameIsLocalName s = hostnameIsLocalName host := by
  obtain ⟨name, rfl, hbytes, hshort, hhost⟩ := h.host
  have hbare : ∀ b ∈ name.map toLower, isBareByte b = true := by
    intro b hb
    obtain ⟨c, hc, rfl⟩ := List.mem_map.1 hb
    exact isBareByte_toLower (hbytes c hc)
  have hlower : (name.map toLower).map toLower = name.map toLower :=
    (List.map_congr_left fun b hb => (toLower_bare (hbare b hb)).2).trans (List.map_id _)
  have hname : ch ':' ∉ name := fun hc => nomatch hbytes _ hc
  have hnorm : normalizeHost (name.map toLower) (policyHostMax + 2) = (name.map toLower).rdropWhile isDot := by
    rw [normalizeHost_short (fun hc => nomatch hbare _ hc) (by rw [List.length_map]; omega), hlower]
  have hsame : normalizeHost host (policyHostMax + 2) = (name.map toLower).rdropWhile isDot := by
    rcases hhost with rfl | rfl
    · exact normalizeHost_short hname (by omega)
    · rw [normalizeHost_short (by simpa [show ch ':' ≠ ch '.' by decide] using hname)
        (by rw [List.length_append, List.length_singleton]; omega), List.map_append]
      exact List.rdropWhile_concat_pos _ _ _ (by decide)
  unfold hostnameIsLocalName
  rw [hnorm, hsame]

/-- **No address and no local name is handed to a provider** for a parsed
host, exactly when the host does not become an address by losing the dot at
its end. -/
theorem checkDestination_handed_iff (p : Policy) (env : ClientEnv) (host : List Byte) (o : Outcome) (hp : ParserHost host) :
    (∀ s, ProviderAsked p env host o s → hostnameIsLocalName s = false ∧ env.hostIsNumericAddress s = false) ↔
      (host.getLast? = some (ch '.') → env.hostIsNumericAddress host.dropLast = true →
        policyCheckHost p host ≠ .allow ∨ hostnameIsLocalName host = true ∨ env.hostIsNumericAddress host = true ∨
          normaliseHost host = none) := by
  simp only [providerAsked_iff]
  have hgate : ∀ s, normaliseHost host = some s → s = undotted host := by
    intro s hs
    rw [(normaliseHost_iff.1 hs).eq]
    refine parsedHost_toLower fun b hb => hp.facts.2.2 b ?_
    unfold undotted at hb
    split at hb
    · exact List.dropLast_subset _ hb
    · exact hb
  constructor
  · intro h hend hnumeric
    by_contra hcon
    simp only [not_or, ne_eq, not_not, Bool.not_eq_true] at hcon
    obtain ⟨hallow, hlocal, hhost, hsome⟩ := hcon
    obtain ⟨s, hs⟩ := Option.ne_none_iff_exists'.1 hsome
    have hnot := (h s ⟨hallow, hlocal, hhost, hs⟩).2
    rw [hgate s hs, undotted, if_pos hend, hnumeric] at hnot
    cases hnot
  · rintro h s ⟨hallow, hlocal, hhost, hs⟩
    refine ⟨(normaliseHost_iff.1 hs).local_eq.trans hlocal, ?_⟩
    rw [hgate s hs, undotted]
    split
    · rename_i hend
      by_contra hnumeric
      simp only [Bool.not_eq_false] at hnumeric
      rcases h hend hnumeric with hno | hno | hno | hno
      · exact hno hallow
      · rw [hlocal] at hno
        cases hno
      · rw [hhost] at hno
        cases hno
      · rw [hs] at hno
        cases hno
    · exact hhost

/-- The addresses of the form `a.b.c.d`, as a resolver reads them. -/
def isDottedQuad (s : List Byte) : Bool :=
  let parts := s.splitOn (ch '.')
  parts.length == 4 && parts.all fun part => !part.isEmpty && part.all isDigit && decide (numVal part ≤ 255)

/-- Nobody on the network, and a resolver that knows the dotted addresses. -/
def quadEnv : ClientEnv := { idleEnv [] with hostIsNumericAddress := isDottedQuad }

/-- A name with a dot at its end. -/
theorem checkDestination_handed_name :
    let host := bytes "example.com."
    ParserHost host ∧ ProviderAsked .zero quadEnv host {} (bytes "example.com") ∧
      ∀ s, ProviderAsked .zero quadEnv host {} s → hostnameIsLocalName s = false ∧ isDottedQuad s = false := by
  intro host
  have hp : ParserHost host := .inl ⟨bytes "http://example.com./", ⟨host, 80, bytes "/"⟩, by decide, rfl⟩
  refine ⟨hp, providerAsked_iff.2 ⟨by decide, by decide, by decide +kernel, by decide⟩, ?_⟩
  exact (checkDestination_handed_iff .zero quadEnv host {} hp).2 fun _ hnumeric => absurd hnumeric (by decide +kernel)

/-- An address with one: it is no address to `check_destination`, and is one
again when the provider gets it. -/
theorem checkDestination_handed_address :
    let host := bytes "127.0.0.1."
    ParserHost host ∧ quadEnv.hostIsNumericAddress host = false ∧
      ProviderAsked .zero quadEnv host {} (bytes "127.0.0.1") ∧
      quadEnv.hostIsNumericAddress (bytes "127.0.0.1") = true := by
  intro host
  refine ⟨.inl ⟨bytes "http://127.0.0.1./", ⟨host, 80, bytes "/"⟩, by decide, rfl⟩, by decide +kernel,
    providerAsked_iff.2 ⟨by decide, by decide, by decide +kernel, by decide⟩, by decide +kernel⟩

end SecureProxy
