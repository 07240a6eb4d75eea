/-
A pool of programs over one shared state, one step at a time in any order.

A worker is started from a seed, which fixes its program. Its questions are
served by the shared state, each at once; between two steps of a worker any
other worker, and whoever else owns the state, may take theirs. The log keeps
what was said and answered, in the order in which it happened, with what the
service noted about each answer.
-/
import SecureProxy.Lib.Prog
import SecureProxy.Lib.Slots

namespace Progs

variable {Q : Type} {A : Q → Type} {E α σ ι ν : Type}

/-- One thing a worker did; `note` is what the service noted. -/
structure LogEntry {Q : Type} (A : Q → Type) (E ν : Type) where
  worker : Nat
  obs : Obs A E
  note : Option ν

structure Worker {Q : Type} (A : Q → Type) (E α ι : Type) where
  seed : ι
  rest : Prog A E α

structure Pool {Q : Type} (A : Q → Type) (E α σ ι ν : Type) where
  shared : σ
  workers : List (Worker A E α ι) := []
  log : List (LogEntry A E ν) := []

/-- What may happen to the shared state. -/
structure Service {Q : Type} (A : Q → Type) (E α σ ι ν : Type) where
  prog : ι → Prog A E α
  start : σ → ι → σ → Prop
  serve : σ → (q : Q) → A q → ν → σ → Prop
  outside : σ → σ → Prop

namespace Pool

/-- One step of one worker, or of the rest of the world. -/
inductive Step (S : Service A E α σ ι ν) : Pool A E α σ ι ν → Pool A E α σ ι ν → Prop
  | start {s s' ws log x} : S.start s x s' → Step S ⟨s, ws, log⟩ ⟨s', ws ++ [⟨x, S.prog x⟩], log⟩
  | say {s ws log i x e k} : ws[i]? = some ⟨x, .say e k⟩ →
      Step S ⟨s, ws, log⟩ ⟨s, ws.set i ⟨x, k⟩, log ++ [⟨i, .said e, none⟩]⟩
  | ask {s s' ws log i x q k a n} : ws[i]? = some ⟨x, .ask q k⟩ → S.serve s q a n s' →
      Step S ⟨s, ws, log⟩ ⟨s', ws.set i ⟨x, k a⟩, log ++ [⟨i, .asked q a, some n⟩]⟩
  | outside {s s' ws log} : S.outside s s' → Step S ⟨s, ws, log⟩ ⟨s', ws, log⟩

/-- The pools an initial state can lead to by steps that meet `ok`. -/
inductive ReachIf (S : Service A E α σ ι ν) (ok : Pool A E α σ ι ν → Pool A E α σ ι ν → Prop) (s₀ : σ) :
    Pool A E α σ ι ν → Prop
  | init : ReachIf S ok s₀ ⟨s₀, [], []⟩
  | step {P P'} : ReachIf S ok s₀ P → Step S P P' → ok P P' → ReachIf S ok s₀ P'

/-- The pools an initial state can lead to. -/
abbrev Reach (S : Service A E α σ ι ν) (s₀ : σ) : Pool A E α σ ι ν → Prop := ReachIf S (fun _ _ => True) s₀

/-- A run from `P`, and how many of its steps are such as `own` counts. -/
inductive Path (S : Service A E α σ ι ν) (own : Pool A E α σ ι ν → Pool A E α σ ι ν → Bool) (P : Pool A E α σ ι ν) :
    Nat → Pool A E α σ ι ν → Prop
  | here : Path S own P 0 P
  | step {n P' P''} : Path S own P n P' → Step S P' P'' → Path S own P (n + (own P' P'').toNat) P''

end Pool

/-- What one worker did, in order. -/
def past (log : List (LogEntry A E ν)) (i : Nat) : List (Obs A E) :=
  log.filterMap fun x => if x.worker = i then some x.obs else none

@[simp] theorem past_append (log log' : List (LogEntry A E ν)) (i : Nat) :
    past (log ++ log') i = past log i ++ past log' i :=
  List.filterMap_append

theorem past_cons_self (x : LogEntry A E ν) (log : List (LogEntry A E ν)) :
    past (x :: log) x.worker = x.obs :: past log x.worker := by
  simp [past]

theorem past_singleton (x : LogEntry A E ν) (i : Nat) : past [x] i = if x.worker = i then [x.obs] else [] := by
  by_cases h : x.worker = i <;> simp [past, h]

theorem mem_past {log : List (LogEntry A E ν)} {i : Nat} {o : Obs A E} (h : o ∈ past log i) :
    ∃ x ∈ log, x.worker = i ∧ x.obs = o := by
  obtain ⟨x, hx, ho⟩ := List.mem_filterMap.1 h
  by_cases hi : x.worker = i
  · rw [if_pos hi] at ho
    exact ⟨x, hx, hi, Option.some.inj ho⟩
  · rw [if_neg hi] at ho
    cases ho

/-- Where in the log an entry of a worker's past is. -/
theorem past_split {log : List (LogEntry A E ν)} {i : Nat} {a c : List (Obs A E)} {o : Obs A E}
    (h : past log i = a ++ o :: c) :
    ∃ pre n post, log = pre ++ ⟨i, o, n⟩ :: post ∧ past pre i = a := by
  obtain ⟨pre, rest, rfl, hpre, hrest⟩ := List.filterMap_eq_append_iff.1 h
  obtain ⟨skip, x, post, rfl, hskip, hx, -⟩ := List.filterMap_eq_cons_iff.1 hrest
  have hnone : past skip i = [] := List.filterMap_eq_nil_iff.2 hskip
  by_cases hi : x.worker = i
  · rw [if_pos hi, Option.some.injEq] at hx
    subst hi hx
    refine ⟨pre ++ skip, x.note, post, by simp, ?_⟩
    rw [past_append, hnone, List.append_nil]
    exact hpre
  · rw [if_neg hi] at hx
    cases hx

/-- The answers a service can give. -/
def Service.Ok (S : Service A E α σ ι ν) (q : Q) (a : A q) : Prop := ∃ s n s', S.serve s q a n s'

/-- Each worker has come to where it is by what it did. -/
structure Pool.Sound (S : Service A E α σ ι ν) (P : Pool A E α σ ι ν) : Prop where
  leads : ∀ i w, P.workers[i]? = some w → Leads S.Ok (S.prog w.seed) (past P.log i) w.rest
  known : ∀ x ∈ P.log, x.worker < P.workers.length

section

variable {S : Service A E α σ ι ν} {P P' : Pool A E α σ ι ν}

/-- A worker's next entry, and what the others keep. -/
theorem Pool.Sound.advance {s s' : σ} {ws : List (Worker A E α ι)} {log : List (LogEntry A E ν)}
    (h : Sound S ⟨s, ws, log⟩) {i : Nat} {x : ι} {p p' : Prog A E α} {o : Obs A E} {n : Option ν}
    (hw : ws[i]? = some ⟨x, p⟩) (hstep : Leads S.Ok p [o] p') :
    Sound S ⟨s', ws.set i ⟨x, p'⟩, log ++ [⟨i, o, n⟩]⟩ := by
  have hi : i < ws.length := (List.getElem?_eq_some_iff.1 hw).1
  refine ⟨fun j w hj => ?_, fun y hy => ?_⟩
  · simp only [past_append, past_singleton]
    by_cases hij : i = j
    · subst hij
      simp only [List.getElem?_set_self hi, Option.some.injEq] at hj
      subst hj
      simpa using (h.leads i _ hw).trans hstep
    · simp only [List.getElem?_set_ne hij] at hj
      simpa [hij] using h.leads j w hj
  · simp only [List.length_set]
    rcases List.mem_append.1 hy with hy | hy
    · exact h.known y hy
    · rw [List.mem_singleton.1 hy]
      exact hi

/-- A worker that is not there has done nothing. -/
theorem Pool.Sound.past_new {s : σ} {ws : List (Worker A E α ι)} {log : List (LogEntry A E ν)} (h : Sound S ⟨s, ws, log⟩) :
    past log ws.length = [] := by
  refine List.filterMap_eq_nil_iff.2 fun y hy => ?_
  have := h.known y hy
  simp only at this
  rw [if_neg (by omega)]

theorem Pool.Sound.step (h : P.Sound S) (hs : Pool.Step S P P') : P'.Sound S := by
  cases hs with
  | @start s s' ws log x hstart =>
    refine ⟨fun i w hi => ?_, fun y hy => ?_⟩
    · by_cases hlt : i < ws.length
      · rw [List.getElem?_append_left hlt] at hi
        exact h.leads i w hi
      · obtain ⟨hlen, hget⟩ := List.getElem?_eq_some_iff.1 hi
        simp only [List.length_append, List.length_singleton] at hlen
        obtain rfl : i = ws.length := by omega
        simp only [List.getElem_append_right (Nat.le_refl _), Nat.sub_self, List.getElem_singleton] at hget
        subst hget
        simp only [h.past_new]
        exact .here
    · have := h.known y hy
      simp only [List.length_append, List.length_singleton] at this ⊢
      omega
  | say hw => exact h.advance hw (.say .here)
  | ask hw hserve => exact h.advance hw (.ask ⟨_, _, _, hserve⟩ .here)
  | outside _ => exact ⟨h.leads, h.known⟩

variable {ok : Pool A E α σ ι ν → Pool A E α σ ι ν → Prop} {s₀ : σ}

/-- What every step keeps holds in every pool that can be reached. -/
theorem Pool.ReachIf.invariant (h : Pool.ReachIf S ok s₀ P) (inv : Pool A E α σ ι ν → Prop) (h₀ : inv ⟨s₀, [], []⟩)
    (hstep : ∀ P P', inv P → Pool.Step S P P' → ok P P' → inv P') : inv P := by
  induction h with
  | init => exact h₀
  | step _ hs hok ih => exact hstep _ _ ih hs hok

/-- Steps that each take something off a measure that no step adds to are no
more than the measure. -/
theorem Pool.Path.bounded {own : Pool A E α σ ι ν → Pool A E α σ ι ν → Bool} {n : Nat} (h : Pool.Path S own P n P')
    (inv : Pool A E α σ ι ν → Prop) (left : Pool A E α σ ι ν → Nat) (h₀ : inv P)
    (hstep : ∀ P P', inv P → Pool.Step S P P' → inv P' ∧ left P' + (own P P').toNat ≤ left P) :
    inv P' ∧ n + left P' ≤ left P := by
  induction h with
  | here => exact ⟨h₀, by omega⟩
  | step _ hs ih =>
    obtain ⟨hinv, hle⟩ := hstep _ _ ih.1 hs
    exact ⟨hinv, by omega⟩

theorem Pool.ReachIf.sound (h : Pool.ReachIf S ok s₀ P) : P.Sound S :=
  h.invariant (Pool.Sound S) ⟨by simp, by simp⟩ fun _ _ ih hs _ => ih.step hs

/-- A worker's past is the beginning of a run. -/
theorem Pool.ReachIf.runs (h : Pool.ReachIf S ok s₀ P) (hok : ∀ q, ∃ a, S.Ok q a) {i : Nat} {w : Worker A E α ι}
    (hw : P.workers[i]? = some w) : ∃ t r, Runs S.Ok (S.prog w.seed) (past P.log i ++ t) r :=
  (h.sound.leads i w hw).completes hok

/-- Every entry of the log has a worker. -/
theorem Pool.ReachIf.worker (h : Pool.ReachIf S ok s₀ P) {x : LogEntry A E ν} (hx : x ∈ P.log) :
    ∃ w, P.workers[x.worker]? = some w :=
  ⟨_, List.getElem?_eq_getElem (h.sound.known x hx)⟩

/-! ## Counting workers -/

/-- How many workers have a past that meets a test. -/
def Pool.tally (P : Pool A E α σ ι ν) (f : List (Obs A E) → Bool) : Nat :=
  ((List.range P.workers.length).map (past P.log)).countP f

variable {s s' : σ} {ws : List (Worker A E α ι)} {log : List (LogEntry A E ν)} {f : List (Obs A E) → Bool}

/-- A new worker has no past. -/
theorem Pool.Sound.tally_start (h : Sound S ⟨s, ws, log⟩) (w : Worker A E α ι) (hf : f [] = false) :
    Pool.tally ⟨s', ws ++ [w], log⟩ f = Pool.tally ⟨s, ws, log⟩ f := by
  simp [Pool.tally, List.range_succ, h.past_new, hf]

/-- A worker's next entry changes its own past. -/
theorem Pool.tally_advance {i : Nat} (hi : i < ws.length) (w : Worker A E α ι) (o : Obs A E) (n : Option ν) :
    Pool.tally ⟨s', ws.set i w, log ++ [⟨i, o, n⟩]⟩ f + (f (past log i)).toNat =
      Pool.tally ⟨s, ws, log⟩ f + (f (past log i ++ [o])).toNat := by
  have hpasts : (List.range ws.length).map (past (log ++ [⟨i, o, n⟩])) =
      ((List.range ws.length).map (past log)).set i (past log i ++ [o]) := by
    refine List.ext_getElem? fun j => ?_
    by_cases hj : j < ws.length
    · by_cases hij : i = j
      · subst hij
        simp [hi, past_singleton]
      · simp [hj, hij, past_singleton]
    · simp [hj]
  have hget : ((List.range ws.length).map (past log))[i]? = some (past log i) := by simp [hi]
  simp only [Pool.tally, List.length_set, hpasts]
  exact Slots.countP_set hget _ f

/-! ## One service seen as another -/

section

variable {τ μ : Type} {T : Service A E α τ ι μ} {f : σ → τ} {note : ν → μ}

/-- Through `f` a step of `S` is a step of `T`, but what others do to the
state may go unseen. -/
structure Service.SeenAs (S : Service A E α σ ι ν) (T : Service A E α τ ι μ) (f : σ → τ) (note : ν → μ) : Prop where
  prog : T.prog = S.prog
  start : ∀ s x s', S.start s x s' → T.start (f s) x (f s')
  serve : ∀ s q a n s', S.serve s q a n s' → T.serve (f s) q a (note n) (f s')
  outside : ∀ s s', S.outside s s' → f s' = f s ∨ T.outside (f s) (f s')

def LogEntry.view (note : ν → μ) (x : LogEntry A E ν) : LogEntry A E μ := ⟨x.worker, x.obs, x.note.map note⟩

def Pool.view (f : σ → τ) (note : ν → μ) (P : Pool A E α σ ι ν) : Pool A E α τ ι μ :=
  ⟨f P.shared, P.workers, P.log.map (LogEntry.view note)⟩

theorem past_view (note : ν → μ) (log : List (LogEntry A E ν)) (i : Nat) :
    past (log.map (LogEntry.view note)) i = past log i :=
  List.filterMap_map

theorem Pool.Step.view (hST : S.SeenAs T f note) (hs : Pool.Step S P P') :
    P'.view f note = P.view f note ∨ Pool.Step T (P.view f note) (P'.view f note) := by
  cases hs with
  | start h =>
    simp only [Pool.view, ← hST.prog]
    exact .inr (.start (hST.start _ _ _ h))
  | say hw =>
    simp only [Pool.view, List.map_append, List.map_singleton]
    exact .inr (.say hw)
  | ask hw h =>
    simp only [Pool.view, List.map_append, List.map_singleton]
    exact .inr (.ask hw (hST.serve _ _ _ _ _ h))
  | outside h =>
    rcases hST.outside _ _ h with hsame | hstep
    · exact .inl (by simp only [Pool.view, hsame])
    · exact .inr (.outside hstep)

/-- What can be reached is seen as something that can be. -/
theorem Pool.ReachIf.view (hST : S.SeenAs T f note) {t₀ : τ} (h₀ : Pool.Reach T t₀ ⟨f s₀, [], []⟩)
    (h : Pool.ReachIf S ok s₀ P) : Pool.Reach T t₀ (P.view f note) :=
  h.invariant (fun P => Pool.Reach T t₀ (P.view f note)) h₀ fun P P' ih hs _ => by
    rcases hs.view hST with hsame | hstep
    · rw [hsame]
      exact ih
    · exact .step ih hstep trivial

end

/-! ## Given schedules -/

/-- One move of a schedule: a worker starts, one takes a turn (with the choice
the service is to make), or somebody else moves. -/
inductive Move (ι κ μ : Type) where
  | start (x : ι)
  | turn (i : Nat) (c : κ)
  | outside (m : μ)

/-- A service that leaves nothing open but `κ`; `none` is a move it does not
allow. -/
structure Choice {Q : Type} (A : Q → Type) (σ ι ν κ μ : Type) where
  start : σ → ι → Option σ
  serve : σ → (q : Q) → κ → Option (A q × ν × σ)
  outside : σ → μ → σ

structure Choice.Within {κ μ : Type} (C : Choice A σ ι ν κ μ) (S : Service A E α σ ι ν) : Prop where
  start : ∀ s x s', C.start s x = some s' → S.start s x s'
  serve : ∀ s q c a n s', C.serve s q c = some (a, n, s') → S.serve s q a n s'
  outside : ∀ s m, S.outside s (C.outside s m)

variable {κ μ : Type} {C : Choice A σ ι ν κ μ}

/-- The pool after one move. A worker that is not there, or done, does not
move, and neither does anybody who may not. -/
def Pool.move (prog : ι → Prog A E α) (C : Choice A σ ι ν κ μ) (P : Pool A E α σ ι ν) : Move ι κ μ → Pool A E α σ ι ν
  | .start x =>
    match C.start P.shared x with
    | some s => ⟨s, P.workers ++ [⟨x, prog x⟩], P.log⟩
    | none => P
  | .outside m => ⟨C.outside P.shared m, P.workers, P.log⟩
  | .turn i c =>
    match P.workers[i]? with
    | some ⟨x, .say e k⟩ => ⟨P.shared, P.workers.set i ⟨x, k⟩, P.log ++ [⟨i, .said e, none⟩]⟩
    | some ⟨x, .ask q k⟩ =>
      match C.serve P.shared q c with
      | some (a, n, s) => ⟨s, P.workers.set i ⟨x, k a⟩, P.log ++ [⟨i, .asked q a, some n⟩]⟩
      | none => P
    | _ => P

theorem Pool.ReachIf.move (hC : C.Within S) (h : Pool.ReachIf S ok s₀ P) (m : Move ι κ μ)
    (hok : ok P (P.move S.prog C m)) : Pool.ReachIf S ok s₀ (P.move S.prog C m) := by
  cases m with
  | start x =>
    unfold Pool.move at hok ⊢
    dsimp only at hok ⊢
    split at hok
    · rename_i s hs
      exact .step h (.start (hC.start _ x s hs)) hok
    · exact h
  | outside m => exact .step h (.outside (hC.outside _ m)) hok
  | turn i c =>
    unfold Pool.move at hok ⊢
    dsimp only at hok ⊢
    split at hok
    · rename_i hw
      exact .step h (.say hw) hok
    · rename_i q k hw
      split at hok
      · rename_i a n s hs
        exact .step h (.ask hw (hC.serve _ q c a n s hs)) hok
      · exact h
    · exact h

/-- Every move of a schedule meets `okb`. -/
def Pool.movesOk (prog : ι → Prog A E α) (C : Choice A σ ι ν κ μ)
    (okb : Pool A E α σ ι ν → Pool A E α σ ι ν → Bool) : Pool A E α σ ι ν → List (Move ι κ μ) → Bool
  | _, [] => true
  | P, m :: ms => okb P (P.move prog C m) && Pool.movesOk prog C okb (P.move prog C m) ms

/-- A schedule leads to a pool that can be reached. -/
theorem Pool.ReachIf.schedule (hC : C.Within S) {okb : Pool A E α σ ι ν → Pool A E α σ ι ν → Bool}
    (hokb : ∀ P P', okb P P' = true → ok P P') (h : Pool.ReachIf S ok s₀ P) (ms : List (Move ι κ μ))
    (hms : Pool.movesOk S.prog C okb P ms = true) : Pool.ReachIf S ok s₀ (ms.foldl (Pool.move S.prog C) P) := by
  induction ms generalizing P with
  | nil => exact h
  | cons m ms ih =>
    simp only [Pool.movesOk, Bool.and_eq_true] at hms
    exact ih (h.move hC m (hokb _ _ hms.1)) hms.2

/-- The same where nothing is asked of a step. -/
theorem Pool.Reach.schedule (hC : C.Within S) (h : Pool.Reach S s₀ P) (ms : List (Move ι κ μ)) :
    Pool.Reach S s₀ (ms.foldl (Pool.move S.prog C) P) := by
  induction ms generalizing P with
  | nil => exact h
  | cons m ms ih => exact ih (Pool.ReachIf.move hC h m trivial)

end

end Progs
