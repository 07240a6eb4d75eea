/-
What any number of threads in the logger come to: no call is made on a
descriptor that is not open, and no descriptor is lost.
-/
import SecureProxy.LoggerThreads

namespace SecureProxy

open Bytes Progs

namespace LogThreads

/-! ## One section -/

def FdCall.taken : FdCall → List Byte
  | .write _ taken => taken
  | .close _ => []

/-- Calls of `write()` on one descriptor that took these bytes together. -/
structure Taken (fd : Nat) (text : List Byte) (ws : List FdCall) : Prop where
  writes : ∀ c ∈ ws, ∃ bs, c = .write fd bs
  text : ws.flatMap FdCall.taken = text

theorem Taken.snoc {fd : Nat} {text : List Byte} {ws : List FdCall} (h : Taken fd text ws) (bs : List Byte) :
    Taken fd (text ++ bs) (ws ++ [.write fd bs]) := by
  refine ⟨fun c hc => ?_, ?_⟩
  · rcases List.mem_append.1 hc with hc | hc
    · exact h.writes c hc
    · exact ⟨bs, List.mem_singleton.1 hc⟩
  · rw [List.flatMap_append, h.text]
    simp [FdCall.taken]

/-- How far a section can have come, from where it found things. -/
inductive Reached (g : Guarded) : LogQuery → Inside → Guarded → Prop
  | enter {q} : locked q = true → Reached g q (enter q) g
  | replaced {fd old} : g.fd = some old → Reached g (.install fd) (.store fd) (g.call (.close old))
  | first {fd} : g.fd = none → Reached g (.install fd) (.store fd) g
  | installedOver {fd old} : g.fd = some old →
      Reached g (.install fd) (.done none) { g.call (.close old) with fd := some fd }
  | installed {fd} : g.fd = none → Reached g (.install fd) (.done none) { g with fd := some fd }
  | closing {old} : g.fd = some old → Reached g .close .clear (g.call (.close old))
  | cleared {old} : g.fd = some old → Reached g .close (.done none) { g.call (.close old) with fd := none }
  | closed : g.fd = none → Reached g .close (.done none) g
  | sawEnabled : Reached g .isEnabled (.sawEnabled g.fd.isSome) g
  | sawFailures : Reached g .failureCount (.sawFailures g.failures) g
  | disabled {line} : g.fd = none → Reached g (.write line) (.done none) g
  | writing {fd line total ws} : g.fd = some fd → total ≤ line.length → Taken fd (line.take total) ws →
      Reached g (.write line) (.writing fd line total) { g with calls := g.calls ++ ws }
  | short {fd line total ws} : g.fd = some fd → total < line.length → Taken fd (line.take total) ws →
      Reached g (.write line) (.short fd total) { g with calls := g.calls ++ ws }
  | whole {fd line ws} : g.fd = some fd → Taken fd line ws →
      Reached g (.write line) (.done (some (fd, line.length))) { g with calls := g.calls ++ ws }
  | counted {fd line total ws} : g.fd = some fd → total < line.length → Taken fd (line.take total) ws →
      Reached g (.write line) (.done (some (fd, total))) { g with calls := g.calls ++ ws, failures := g.failures + 1 }

theorem Reached.step {g g' g'' : Guarded} {q : LogQuery} {b b' : Inside} (h : Reached g q b g')
    (hstep : Inside.Step b g' b' g'') : Reached g q b' g'' := by
  cases h with
  | enter hq =>
    cases q with
    | «open» path => cases hq
    | nextRequestId => cases hq
    | install fd =>
      cases hstep with
      | replace h => exact .replaced h
      | first h => exact .first h
    | close =>
      cases hstep with
      | close h => exact .closing h
      | closed h => exact .closed h
    | isEnabled =>
      cases hstep
      exact .sawEnabled
    | failureCount =>
      cases hstep
      exact .sawFailures
    | write line =>
      cases hstep with
      | disabled h => exact .disabled h
      | enabled h =>
        have := @Reached.writing _ _ line 0 [] h (Nat.zero_le _) ⟨by simp, by simp⟩
        simpa using this
  | replaced h =>
    cases hstep
    exact .installedOver h
  | first h =>
    cases hstep
    exact .installed h
  | closing h =>
    cases hstep
    exact .cleared h
  | @writing fd line total ws h hle htaken =>
    cases hstep with
    | @took _ _ _ _ n hlt hpos hn =>
      have hmore := htaken.snoc ((line.drop total).take n)
      rw [← List.take_add] at hmore
      have := Reached.writing h (by omega) hmore
      simpa [Guarded.call] using this
    | eintr hlt =>
      have := Reached.writing h hle (by simpa using htaken.snoc [])
      simpa [Guarded.call] using this
    | stopped hlt =>
      have := Reached.short h hlt (by simpa using htaken.snoc [])
      simpa [Guarded.call] using this
    | whole hge =>
      obtain rfl := Nat.le_antisymm hle hge
      rw [List.take_length] at htaken
      exact .whole h htaken
  | short h hlt htaken =>
    cases hstep
    exact .counted h hlt htaken
  | _ => cases hstep

theorem reached_steps {q : LogQuery} (hq : locked q = true) {b : Inside} {s s' : World}
    (h : sections.Steps (enter q) s b s') : ∃ g, Reached s.guarded q b g ∧ s' = { s with guarded := g } := by
  generalize hb : enter q = b₀ at h
  induction h with
  | refl =>
    subst hb
    exact ⟨_, .enter hq, rfl⟩
  | snoc _ hstep ih =>
    obtain ⟨g, hg, rfl⟩ := ih
    obtain ⟨g', hstep, rfl⟩ := hstep
    exact ⟨g', hg.step hstep, rfl⟩

/-! ## Descriptors -/

/-- Every call is on a descriptor that was opened and not yet closed. -/
def Used (given : Nat) (calls : List FdCall) : Prop :=
  ∀ pre c post, calls = pre ++ c :: post → c.fd < given ∧ .close c.fd ∉ pre

theorem Used.snoc {given : Nat} {calls : List FdCall} (h : Used given calls) {c : FdCall} (hlt : c.fd < given)
    (hopen : .close c.fd ∉ calls) : Used given (calls ++ [c]) := by
  intro pre c' post heq
  rcases List.eq_nil_or_concat post with rfl | ⟨post', last, rfl⟩
  · obtain ⟨rfl, hc⟩ := List.append_inj' heq rfl
    cases hc
    exact ⟨hlt, hopen⟩
  · rw [List.concat_eq_append, ← List.cons_append, ← List.append_assoc] at heq
    exact h pre c' post' (List.append_inj' heq rfl).1

theorem Used.writes {given fd : Nat} {calls : List FdCall} (h : Used given calls) (hlt : fd < given)
    (hopen : .close fd ∉ calls) {text : List Byte} {ws : List FdCall} (hws : Taken fd text ws) :
    Used given (calls ++ ws) ∧ ∀ fd', .close fd' ∈ calls ++ ws → .close fd' ∈ calls := by
  have hclose : ∀ fd', .close fd' ∈ calls ++ ws → .close fd' ∈ calls := by
    intro fd' hmem
    rcases List.mem_append.1 hmem with hmem | hmem
    · exact hmem
    · obtain ⟨bs, hbs⟩ := hws.writes _ hmem
      cases hbs
  refine ⟨?_, hclose⟩
  intro pre c post heq
  rcases List.append_eq_append_iff.1 heq with ⟨as, rfl, hrest⟩ | ⟨bs, hcalls, hrest⟩
  · -- among the writes
    obtain ⟨taken, rfl⟩ := hws.writes c (by rw [hrest]; simp)
    refine ⟨hlt, fun hmem => hopen (hclose fd ?_)⟩
    rw [hrest]
    exact List.mem_append.2 ((List.mem_append.1 hmem).imp id fun h => List.mem_append_left _ h)
  · cases bs with
    | nil =>
      rw [List.nil_append] at hrest
      obtain ⟨taken, rfl⟩ := hws.writes c (by rw [← hrest]; simp)
      rw [List.append_nil] at hcalls
      exact ⟨hlt, hcalls ▸ hopen⟩
    | cons b bs =>
      obtain ⟨rfl, rfl⟩ := List.cons.inj hrest
      exact h pre _ bs hcalls

theorem Used.grow {given given' : Nat} {calls : List FdCall} (h : Used given calls) (hle : given ≤ given') :
    Used given' calls := fun pre c post heq => ⟨Nat.lt_of_lt_of_le (h pre c post heq).1 hle, (h pre c post heq).2⟩

/-! ### A descriptor is installed by the thread that opened it, at once -/

/-- The thread is about to install a descriptor. -/
def Installs (p : LogProg Unit) (fd : Nat) : Prop := ∃ k, p = .ask (.install fd) k

/-- The descriptor an answer gives the thread. -/
def gives : (q : LogQuery) → q.Answer → Option Nat
  | .open _, fd => fd
  | _, _ => none

/-- A descriptor is installed right after it was opened, and only then. -/
def Disciplined : LogProg Unit → Prop
  | .pure _ => True
  | .say _ k => Disciplined k ∧ ∀ fd, ¬ Installs k fd
  | .ask q k => ∀ a, Disciplined (k a) ∧ ∀ fd, Installs (k a) fd ↔ gives q a = some fd

theorem not_installs_pure (fd : Nat) : ¬ Installs (.pure ()) fd := by
  rintro ⟨k, hk⟩
  cases hk

theorem not_installs_say (e : Returned) (k : LogProg Unit) (fd : Nat) : ¬ Installs (.say e k) fd := by
  rintro ⟨k', hk⟩
  cases hk

theorem not_installs_ask {q : LogQuery} (hq : ∀ fd, q ≠ .install fd) (k : q.Answer → LogProg Unit) (fd : Nat) :
    ¬ Installs (.ask q k) fd := by
  rintro ⟨k', hk⟩
  exact hq fd (Prog.ask.inj hk).1

theorem disciplined_thread (ops : List LogOp) : Disciplined (thread ops) ∧ ∀ fd, ¬ Installs (thread ops) fd := by
  induction ops with
  | nil => exact ⟨trivial, not_installs_pure⟩
  | cons op ops ih =>
    have hnone : ∀ fd, Installs (thread ops) fd ↔ (none : Option Nat) = some fd := fun fd =>
      ⟨fun h => absurd h (ih.2 fd), fun h => nomatch h⟩
    have hsay : ∀ e : Returned, Disciplined (.say e (thread ops)) ∧
        ∀ fd, Installs (.say e (thread ops)) fd ↔ (none : Option Nat) = some fd := fun e =>
      ⟨⟨ih.1, ih.2⟩, fun fd => ⟨fun h => absurd h (not_installs_say e _ fd), fun h => nomatch h⟩⟩
    cases op with
    | init path =>
      rcases path with _ | (_ | ⟨b, path⟩)
      · exact ⟨(hsay _).1, not_installs_say _ _⟩
      · exact ⟨(hsay _).1, not_installs_say _ _⟩
      · refine ⟨fun a => ?_, not_installs_ask (by simp) _⟩
        cases a with
        | none => exact hsay _
        | some fd =>
          refine ⟨fun _ => hsay _, fun fd' => ⟨?_, ?_⟩⟩
          · rintro ⟨k, hk⟩
            exact congrArg some (LogQuery.install.inj (Prog.ask.inj hk).1)
          · intro hfd
            obtain rfl : fd = fd' := Option.some.inj hfd
            exact ⟨_, rfl⟩
    | close => exact ⟨fun _ => ⟨ih.1, hnone⟩, not_installs_ask (by simp) _⟩
    | isEnabled => exact ⟨fun _ => hsay _, not_installs_ask (by simp) _⟩
    | nextRequestId => exact ⟨fun _ => hsay _, not_installs_ask (by simp) _⟩
    | failureCount => exact ⟨fun _ => hsay _, not_installs_ask (by simp) _⟩
    | request now f =>
      refine ⟨fun on => ?_, not_installs_ask (by simp) _⟩
      cases on with
      | false => exact ⟨ih.1, hnone⟩
      | true => exact ⟨fun _ => ⟨ih.1, hnone⟩, fun fd => ⟨fun h => absurd h (not_installs_ask (by simp) _ fd), fun h => nomatch h⟩⟩

/-- Worker `i` is about to install `fd`. -/
def Waiting (ws : List LogWorker) (i fd : Nat) : Prop :=
  ∃ w, ws[i]? = some w ∧ Installs w.rest fd

section

variable {ws : List LogWorker} {i : Nat} {x : List LogOp}

theorem waiting_set {p p' : LogProg Unit} (hi : ws[i]? = some ⟨x, p⟩) (j fd : Nat) :
    Waiting (ws.set i ⟨x, p'⟩) j fd ↔ if j = i then Installs p' fd else Waiting ws j fd := by
  have hlt : i < ws.length := (List.getElem?_eq_some_iff.1 hi).1
  by_cases hij : j = i
  · subst hij
    simp [Waiting, hlt]
  · rw [if_neg hij]
    simp [Waiting, Ne.symm hij]

theorem waiting_start (ops : List LogOp) (j fd : Nat) : Waiting (ws ++ [⟨ops, thread ops⟩]) j fd ↔ Waiting ws j fd := by
  unfold Waiting
  by_cases hj : j < ws.length
  · rw [List.getElem?_append_left hj]
  · constructor
    · rintro ⟨w, hw, hinst⟩
      rw [List.getElem?_append_right (by omega)] at hw
      rw [List.mem_singleton.1 (List.mem_of_getElem? hw)] at hinst
      exact absurd hinst ((disciplined_thread ops).2 fd)
    · rintro ⟨w, hw, -⟩
      exact absurd (List.getElem?_eq_some_iff.1 hw).1 hj

theorem waiting_self {p : LogProg Unit} (hi : ws[i]? = some ⟨x, p⟩) (fd : Nat) : Waiting ws i fd ↔ Installs p fd := by
  simp [Waiting, hi]

end

/-- Where every descriptor is: closed, in `g_log_fd`, or with the thread that opened it. -/
structure DescriptorInv (g : Guarded) (given : Nat) (waiting : Nat → Nat → Prop) : Prop where
  used : Used given g.calls
  current : ∀ fd, g.fd = some fd → fd < given ∧ .close fd ∉ g.calls
  pending : ∀ i fd, waiting i fd → fd < given ∧ .close fd ∉ g.calls ∧ g.fd ≠ some fd
  distinct : ∀ i j fd, waiting i fd → waiting j fd → i = j
  kept : ∀ fd < given, .close fd ∈ g.calls ∨ g.fd = some fd ∨ ∃ i, waiting i fd

namespace DescriptorInv

variable {g : Guarded} {given : Nat} {waiting waiting' : Nat → Nat → Prop}

theorem congr (h : DescriptorInv g given waiting) (hw : ∀ i fd, waiting' i fd ↔ waiting i fd) :
    DescriptorInv g given waiting' where
  used := h.used
  current := h.current
  pending i fd hi := h.pending i fd ((hw i fd).1 hi)
  distinct i j fd hi hj := h.distinct i j fd ((hw i fd).1 hi) ((hw j fd).1 hj)
  kept fd hfd := (h.kept fd hfd).imp id fun h => h.imp id fun hi => hi.imp fun i hi => (hw i fd).2 hi

/-- `write()` on the current descriptor. -/
theorem write (h : DescriptorInv g given waiting) {fd : Nat} (hfd : g.fd = some fd) {text : List Byte} {ws : List FdCall}
    (hws : Taken fd text ws) (failures : Nat) :
    DescriptorInv { g with calls := g.calls ++ ws, failures } given waiting := by
  obtain ⟨hlt, hopen⟩ := h.current fd hfd
  obtain ⟨hused, hclose⟩ := h.used.writes hlt hopen hws
  refine ⟨hused, fun fd' hfd' => ?_, fun i fd' hi => ?_, h.distinct, fun fd' hlt' => ?_⟩
  · exact ⟨(h.current fd' hfd').1, fun hmem => (h.current fd' hfd').2 (hclose fd' hmem)⟩
  · exact ⟨(h.pending i fd' hi).1, fun hmem => (h.pending i fd' hi).2.1 (hclose fd' hmem), (h.pending i fd' hi).2.2⟩
  · exact (h.kept fd' hlt').imp (List.mem_append_left _) id

/-- `close()` of the current descriptor, which is then no longer it. -/
theorem close (h : DescriptorInv g given waiting) {old : Nat} (hfd : g.fd = some old) :
    DescriptorInv { g.call (.close old) with fd := none } given waiting := by
  obtain ⟨hlt, hopen⟩ := h.current old hfd
  refine ⟨h.used.snoc hlt hopen, by simp, fun i fd hi => ?_, h.distinct, fun fd hlt' => ?_⟩
  · obtain ⟨hl, hc, hne⟩ := h.pending i fd hi
    refine ⟨hl, fun hmem => ?_, by simp⟩
    rcases List.mem_append.1 hmem with hmem | hmem
    · exact hc hmem
    · obtain rfl : fd = old := FdCall.close.inj (List.mem_singleton.1 hmem)
      exact hne hfd
  · rcases h.kept fd hlt' with hc | hc | hc
    · exact .inl (List.mem_append_left _ hc)
    · rw [hfd] at hc
      obtain rfl := Option.some.inj hc
      exact .inl (by simp [Guarded.call])
    · exact .inr (.inr hc)

/-- A thread installs its descriptor where there is none. -/
theorem install (h : DescriptorInv g given waiting) (hfd : g.fd = none) {i fd : Nat} (hi : waiting i fd)
    (hw : ∀ j fd', waiting' j fd' ↔ j ≠ i ∧ waiting j fd') (hone : ∀ fd', waiting i fd' → fd' = fd) :
    DescriptorInv { g with fd := some fd } given waiting' := by
  obtain ⟨hlt, hc, -⟩ := h.pending i fd hi
  refine ⟨h.used, fun fd' hfd' => ?_, fun j fd' hj => ?_, fun j k fd' hj hk => ?_, fun fd' hlt' => ?_⟩
  · obtain rfl := Option.some.inj hfd'
    exact ⟨hlt, hc⟩
  · obtain ⟨hne, hj⟩ := (hw j fd').1 hj
    obtain ⟨hl, hc', -⟩ := h.pending j fd' hj
    refine ⟨hl, hc', fun heq => ?_⟩
    obtain rfl := Option.some.inj heq
    exact hne (h.distinct j i fd hj hi)
  · exact h.distinct j k fd' ((hw j fd').1 hj).2 ((hw k fd').1 hk).2
  · rcases h.kept fd' hlt' with hc | hc | ⟨j, hj⟩
    · exact .inl hc
    · rw [hfd] at hc
      cases hc
    · by_cases hij : j = i
      · subst hij
        exact .inr (.inl (congrArg some (hone fd' hj).symm))
      · exact .inr (.inr ⟨j, (hw j fd').2 ⟨hij, hj⟩⟩)

/-- `open()` gives a thread a new descriptor. -/
theorem opened (h : DescriptorInv g given waiting) {i : Nat}
    (hw : ∀ j fd, waiting' j fd ↔ waiting j fd ∨ j = i ∧ fd = given) : DescriptorInv g (given + 1) waiting' := by
  refine ⟨h.used.grow (Nat.le_succ _), fun fd hfd => ?_, fun j fd hj => ?_, fun j k fd hj hk => ?_, fun fd hlt => ?_⟩
  · exact ⟨Nat.lt_succ_of_lt (h.current fd hfd).1, (h.current fd hfd).2⟩
  · rcases (hw j fd).1 hj with hj | ⟨rfl, rfl⟩
    · exact ⟨Nat.lt_succ_of_lt (h.pending j fd hj).1, (h.pending j fd hj).2⟩
    · refine ⟨Nat.lt_succ_self _, fun hmem => ?_, fun hfd => ?_⟩
      · obtain ⟨pre, post, heq⟩ := List.append_of_mem hmem
        exact absurd (h.used pre _ post heq).1 (Nat.lt_irrefl _)
      · exact absurd (h.current _ hfd).1 (Nat.lt_irrefl _)
  · rcases (hw j fd).1 hj with hj | ⟨rfl, rfl⟩
    · rcases (hw k fd).1 hk with hk | ⟨rfl, rfl⟩
      · exact h.distinct j k fd hj hk
      · exact absurd (h.pending j _ hj).1 (Nat.lt_irrefl _)
    · rcases (hw k _).1 hk with hk | ⟨rfl, -⟩
      · exact absurd (h.pending k _ hk).1 (Nat.lt_irrefl _)
      · rfl
  · by_cases hfd : fd = given
    · exact .inr (.inr ⟨i, (hw i fd).2 (.inr ⟨rfl, hfd⟩)⟩)
    · rcases h.kept fd (by omega) with hc | hc | ⟨j, hj⟩
      · exact .inl hc
      · exact .inr (.inl hc)
      · exact .inr (.inr ⟨j, (hw j fd).2 (.inl hj)⟩)

end DescriptorInv

/-- What holds of the pool. -/
structure PoolInv (P : LogPool) : Prop where
  disciplined : ∀ (i : Nat) (w : LogWorker), P.workers[i]? = some w → Disciplined w.rest
  descriptors : DescriptorInv P.shared.guarded P.shared.given.length (Waiting P.workers)

theorem disciplined_set {ws : List LogWorker} {i : Nat} {x : List LogOp}
    {p : LogProg Unit} (h : ∀ (i : Nat) (w : LogWorker), ws[i]? = some w → Disciplined w.rest) (hp : Disciplined p) :
    ∀ (j : Nat) (w : LogWorker), (ws.set i ⟨x, p⟩)[j]? = some w → Disciplined w.rest := by
  intro j w hj
  rcases List.mem_or_eq_of_mem_set (List.mem_of_getElem? hj) with hmem | rfl
  · obtain ⟨j', hj'⟩ := List.mem_iff_getElem?.1 hmem
    exact h j' w hj'
  · exact hp

/-- What a whole question does to the descriptors. -/
theorem DescriptorInv.serve {s s' : World} {q : LogQuery} {a : q.Answer} {n : Option (Nat × Nat)}
    (hserve : sections.Serves s q a n s') {waiting waiting' : Nat → Nat → Prop} {i : Nat}
    (h : DescriptorInv s.guarded s.given.length waiting) (hi : ∀ fd, waiting i fd ↔ q = .install fd)
    (hw : ∀ j fd, waiting' j fd ↔ if j = i then gives q a = some fd else waiting j fd) :
    DescriptorInv s'.guarded s'.given.length waiting' := by
  -- where no descriptor changes hands
  have hsame : (∀ fd, q ≠ .install fd) → gives q a = none → ∀ j fd, waiting' j fd ↔ waiting j fd := by
    intro hq hg j fd
    rw [hw j fd, hg]
    by_cases hij : j = i
    · subst hij
      simp [hi fd, hq fd]
    · simp [hij]
  cases hserve with
  | free hq hfree =>
    cases hfree with
    | noFile => exact h.congr (hsame (by simp) rfl)
    | nextRequestId => exact h.congr (hsame (by simp) rfl)
    | @opened path =>
      rw [List.length_append, List.length_singleton]
      refine h.opened (i := i) fun j fd => ?_
      rw [hw j fd]
      by_cases hij : j = i
      · subst hij
        simp [gives, hi fd, eq_comm]
      · simp [hij]
  | «section» hq hsteps hleave =>
    obtain ⟨g, hreached, rfl⟩ := reached_steps hq hsteps
    cases hleave with
    | @install fd =>
      have hinst : waiting i fd := (hi fd).2 rfl
      have hone : ∀ fd', waiting i fd' → fd' = fd := fun fd' h' => (LogQuery.install.inj ((hi fd').1 h')).symm
      have hw' : ∀ j fd', waiting' j fd' ↔ j ≠ i ∧ waiting j fd' := by
        intro j fd'
        rw [hw j fd']
        by_cases hij : j = i <;> simp [hij, gives]
      cases hreached with
      | installedOver hold => exact (h.close hold).install rfl hinst hw' hone
      | installed hnone => exact h.install hnone hinst hw' hone
    | close =>
      refine DescriptorInv.congr ?_ (hsame (by simp) rfl)
      cases hreached with
      | cleared hold => exact h.close hold
      | closed hnone => exact h
    | isEnabled =>
      refine DescriptorInv.congr ?_ (hsame (by simp) rfl)
      cases hreached
      exact h
    | failureCount =>
      refine DescriptorInv.congr ?_ (hsame (by simp) rfl)
      cases hreached
      exact h
    | write =>
      refine DescriptorInv.congr ?_ (hsame (by simp) rfl)
      cases hreached with
      | disabled hnone => exact h
      | whole hfd htaken => exact h.write hfd htaken _
      | counted hfd hlt htaken => exact h.write hfd htaken _

theorem PoolInv.step {P P' : LogPool} (h : PoolInv P) (hstep : Pool.Step sections.service P P') : PoolInv P' := by
  cases hstep with
  | @start s s' ws log x hstart =>
    obtain rfl : s' = s := hstart
    refine ⟨fun i w hw => ?_, h.descriptors.congr fun i fd => waiting_start x i fd⟩
    rcases List.mem_append.1 (List.mem_of_getElem? hw) with hmem | hmem
    · obtain ⟨i', hi'⟩ := List.mem_iff_getElem?.1 hmem
      exact h.disciplined i' w hi'
    · rw [List.mem_singleton.1 hmem]
      exact (disciplined_thread x).1
  | @say s ws log i x e k hw =>
    obtain ⟨hk, hnone⟩ := h.disciplined i _ hw
    refine ⟨disciplined_set h.disciplined hk, h.descriptors.congr fun j fd => ?_⟩
    rw [waiting_set hw]
    by_cases hij : j = i
    · subst hij
      rw [if_pos rfl, waiting_self hw]
      exact iff_of_false (hnone fd) (not_installs_say e k fd)
    · rw [if_neg hij]
  | @ask s s' ws log i x q k a n hw hserve =>
    obtain ⟨hk, hgives⟩ := h.disciplined i _ hw a
    refine ⟨disciplined_set h.disciplined hk, h.descriptors.serve hserve (i := i) (fun fd => ?_) fun j fd => ?_⟩
    · rw [waiting_self hw]
      constructor
      · rintro ⟨k', hk'⟩
        exact (Prog.ask.inj hk').1
      · rintro rfl
        exact ⟨k, rfl⟩
    · rw [waiting_set hw]
      by_cases hij : j = i
      · rw [if_pos hij, if_pos hij]
        exact hgives fd
      · rw [if_neg hij, if_neg hij]
  | outside hout => exact hout.elim

theorem PoolInv.reach {P : LogPool} (h : Pool.Reach sections.service {} P) : PoolInv P :=
  h.invariant PoolInv ⟨by simp, ⟨fun pre c post heq => by simp at heq, by simp, by simp [Waiting], by simp [Waiting], by simp⟩⟩
    fun _ _ ih hs _ => ih.step hs

/-- Also in the middle of a section. -/
theorem DescriptorInv.reached {g g' : Guarded} {given : Nat} {waiting : Nat → Nat → Prop} {q : LogQuery} {b : Inside}
    (h : DescriptorInv g given waiting) (hr : Reached g q b g') :
    Used given g'.calls ∧ ∀ fd < given, .close fd ∈ g'.calls ∨ g'.fd = some fd ∨ ∃ i, waiting i fd := by
  have hclosed : ∀ {old : Nat}, g.fd = some old → Used given (g.calls ++ [.close old]) ∧
      ∀ fd < given, .close fd ∈ g.calls ++ [.close old] ∨ ∃ i, waiting i fd := by
    intro old hold
    have hclose := h.close hold
    refine ⟨hclose.used, fun fd hlt => ?_⟩
    rcases hclose.kept fd hlt with hc | hc | hc
    · exact .inl hc
    · cases hc
    · exact .inr hc
  have hwrote : ∀ {fd : Nat} {text : List Byte} {ws : List FdCall}, g.fd = some fd → Taken fd text ws →
      Used given (g.calls ++ ws) ∧ ∀ fd < given, .close fd ∈ g.calls ++ ws ∨ g.fd = some fd ∨ ∃ i, waiting i fd := by
    intro fd text ws hfd htaken
    have hwrite := h.write hfd htaken g.failures
    exact ⟨hwrite.used, hwrite.kept⟩
  cases hr with
  | enter => exact ⟨h.used, h.kept⟩
  | replaced hold => exact ⟨(hclosed hold).1, fun fd hlt => ((hclosed hold).2 fd hlt).imp id .inr⟩
  | installedOver hold => exact ⟨(hclosed hold).1, fun fd hlt => ((hclosed hold).2 fd hlt).imp id .inr⟩
  | closing hold => exact ⟨(hclosed hold).1, fun fd hlt => ((hclosed hold).2 fd hlt).imp id .inr⟩
  | cleared hold => exact ⟨(hclosed hold).1, fun fd hlt => ((hclosed hold).2 fd hlt).imp id .inr⟩
  | installed hnone =>
    refine ⟨h.used, fun fd hlt => ?_⟩
    rcases h.kept fd hlt with hc | hc | hc
    · exact .inl hc
    · rw [hnone] at hc
      cases hc
    · exact .inr (.inr hc)
  | writing hfd _ htaken => exact hwrote hfd htaken
  | short hfd _ htaken => exact hwrote hfd htaken
  | whole hfd htaken => exact hwrote hfd htaken
  | counted hfd _ htaken => exact hwrote hfd htaken
  | _ => exact ⟨h.used, h.kept⟩

/-- What the threads have come to: a pool of whole sections, and as much of one
as is under way. -/
theorem reach_within {T : LogRun} (h : Threads.Reach sections {} T) :
    ∃ c, Pool.Reach sections.service {} ⟨c, T.workers, T.log⟩ ∧
      (T.shared = c ∧ T.holder = none ∨ ∃ i b x q k g, T.holder = some (i, b) ∧ T.workers[i]? = some ⟨x, .ask q k⟩ ∧
        Reached c.guarded q b g ∧ T.shared = { c with guarded := g }) := by
  obtain ⟨c, hreach, hwithin⟩ := h.refines sections_movers
  refine ⟨c, hreach, ?_⟩
  cases hholder : T.holder with
  | none => exact .inl ⟨(hwithin.idle hholder).symm, rfl⟩
  | some held =>
    obtain ⟨i, b⟩ := held
    obtain ⟨x, q, k, hw, hq, hsteps⟩ := hwithin.busy i b hholder
    obtain ⟨g, hg, hs⟩ := reached_steps hq hsteps
    exact .inr ⟨i, b, x, q, k, g, rfl, hw, hg, hs⟩

/-- **No thread ever uses a descriptor that is not open, and none is lost**,
however the threads that open, replace, close and write the log are
interleaved: every `write()` and `close()` is on a descriptor that was opened
and not closed before, and every descriptor is closed, or in `g_log_fd`, or in
the hands of the thread that just opened it. -/
theorem logThreads_descriptors {T : LogRun} (h : Threads.Reach sections {} T) :
    (∀ pre c post, T.shared.guarded.calls = pre ++ c :: post → c.fd < T.shared.given.length ∧ .close c.fd ∉ pre) ∧
      ∀ fd < T.shared.given.length, .close fd ∈ T.shared.guarded.calls ∨ T.shared.guarded.fd = some fd ∨
        ∃ (i : Nat) (x : List LogOp) (k : Unit → LogProg Unit), T.workers[i]? = some ⟨x, .ask (.install fd) k⟩ := by
  obtain ⟨c, hreach, hcase⟩ := reach_within h
  have hinv := (PoolInv.reach hreach).descriptors
  have hwaiting : ∀ fd, (∃ i, Waiting T.workers i fd) →
      ∃ (i : Nat) (x : List LogOp) (k : Unit → LogProg Unit), T.workers[i]? = some ⟨x, .ask (.install fd) k⟩ := by
    rintro fd ⟨i, ⟨x, p⟩, hw, k, rfl⟩
    exact ⟨i, x, k, hw⟩
  rcases hcase with ⟨hs, -⟩ | ⟨i, b, x, q, k, g, -, hw, hg, hs⟩
  · rw [hs]
    exact ⟨hinv.used, fun fd hlt => (hinv.kept fd hlt).imp id fun h => h.imp id (hwaiting fd)⟩
  · rw [hs]
    obtain ⟨hused, hkept⟩ := hinv.reached hg
    exact ⟨hused, fun fd hlt => (hkept fd hlt).imp id fun h => h.imp id (hwaiting fd)⟩

/-- Two threads open the log at once; the second to install its descriptor closes
the first one's. -/
theorem logThreads_descriptors_replaced : ∃ T : LogRun,
    T.shared.guarded.calls = [.close 0] ∧ T.shared.guarded.fd = some 1 ∧
      (∀ pre c post, T.shared.guarded.calls = pre ++ c :: post → c.fd < T.shared.given.length ∧ .close c.fd ∉ pre) ∧
      ∀ fd < T.shared.given.length, .close fd ∈ T.shared.guarded.calls ∨ T.shared.guarded.fd = some fd ∨
        ∃ (i : Nat) (x : List LogOp) (k : Unit → LogProg Unit), T.workers[i]? = some ⟨x, .ask (.install fd) k⟩ := by
  have h := @Threads.Reach.init _ _ _ _ _ _ _ _ sections {}
  have h := h.step (.start (x := [.init (some (bytes "a.log"))]) rfl)
  have h := h.step (.start (x := [.init (some (bytes "b.log"))]) rfl)
  have h := h.step (.free (i := 0) rfl rfl .opened)
  have h := h.step (.free (i := 1) rfl rfl .opened)
  have h := h.step (.lock (i := 0) rfl rfl)
  have h := h.step (.body ⟨_, .first rfl, rfl⟩)
  have h := h.step (.body ⟨_, .store, rfl⟩)
  have h := h.step (.unlock (i := 0) rfl .install)
  have h := h.step (.lock (i := 1) rfl rfl)
  have h := h.step (.body ⟨_, .replace rfl, rfl⟩)
  have h := h.step (.body ⟨_, .store, rfl⟩)
  exact ⟨_, rfl, rfl, logThreads_descriptors h⟩

end LogThreads

end SecureProxy
