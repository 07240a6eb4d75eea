/-
Critical sections, one small step at a time.

In `Lib.Pool` a worker's question is served at once. Here some of the questions
are critical sections: the worker takes the mutex, goes through the section in
small steps, and gives it back; between two of its steps any other worker may
take its own, as long as it does not need the mutex. Where what the others do
meanwhile could as well have been done before the section began
(`Movers`), such a pool does nothing that a pool with whole sections would not
(`Threads.Reach.refines`).
-/
import SecureProxy.Lib.Pool

namespace Progs

variable {Q : Type} {A : Q → Type} {E α σ ι ν β : Type}

/-- What the questions of a pool do: sections in steps of `β`, the others at once. -/
structure Sections {Q : Type} (A : Q → Type) (E α σ ι ν β : Type) where
  prog : ι → Prog A E α
  locked : Q → Bool
  enter : Q → β
  step : β → σ → β → σ → Prop
  leave : (q : Q) → β → A q → ν → Prop
  free : σ → (q : Q) → A q → ν → σ → Prop
  start : σ → ι → σ → Prop

/-- Some steps of a section. -/
inductive Sections.Steps (S : Sections A E α σ ι ν β) : β → σ → β → σ → Prop
  | refl {b s} : Steps S b s b s
  | snoc {b s b' s' b'' s''} : Steps S b s b' s' → S.step b' s' b'' s'' → Steps S b s b'' s''

/-- A whole question. -/
inductive Sections.Serves (S : Sections A E α σ ι ν β) (s : σ) (q : Q) (a : A q) (n : ν) (s' : σ) : Prop
  | section {b : β} : S.locked q = true → S.Steps (S.enter q) s b s' → S.leave q b a n → Serves S s q a n s'
  | free : S.locked q = false → S.free s q a n s' → Serves S s q a n s'

/-- The service that answers each question at once. -/
def Sections.service (S : Sections A E α σ ι ν β) : Service A E α σ ι ν where
  prog := S.prog
  start := S.start
  serve := S.Serves
  outside _ _ := False

/-- What needs no mutex commutes to the left of a section's steps. -/
structure Sections.Movers (S : Sections A E α σ ι ν β) : Prop where
  free : ∀ b c b' f q a n f', S.step b c b' f → S.locked q = false → S.free f q a n f' →
    ∃ c', S.free c q a n c' ∧ S.step b c' b' f'
  start : ∀ b c b' f x f', S.step b c b' f → S.start f x f' → ∃ c', S.start c x c' ∧ S.step b c' b' f'

/-- The pool, with whoever has the mutex and where in its section it is. -/
structure Threads {Q : Type} (A : Q → Type) (E α σ ι ν β : Type) where
  shared : σ
  holder : Option (Nat × β) := none
  workers : List (Worker A E α ι) := []
  log : List (LogEntry A E ν) := []

namespace Threads

inductive Step (S : Sections A E α σ ι ν β) : Threads A E α σ ι ν β → Threads A E α σ ι ν β → Prop
  | start {s s' h ws log x} : S.start s x s' → Step S ⟨s, h, ws, log⟩ ⟨s', h, ws ++ [⟨x, S.prog x⟩], log⟩
  | say {s h ws log i x e k} : ws[i]? = some ⟨x, .say e k⟩ →
      Step S ⟨s, h, ws, log⟩ ⟨s, h, ws.set i ⟨x, k⟩, log ++ [⟨i, .said e, none⟩]⟩
  | free {s s' h ws log i x q k a n} : ws[i]? = some ⟨x, .ask q k⟩ → S.locked q = false → S.free s q a n s' →
      Step S ⟨s, h, ws, log⟩ ⟨s', h, ws.set i ⟨x, k a⟩, log ++ [⟨i, .asked q a, some n⟩]⟩
  | lock {s ws log i x q k} : ws[i]? = some ⟨x, .ask q k⟩ → S.locked q = true →
      Step S ⟨s, none, ws, log⟩ ⟨s, some (i, S.enter q), ws, log⟩
  | body {s s' ws log i b b'} : S.step b s b' s' → Step S ⟨s, some (i, b), ws, log⟩ ⟨s', some (i, b'), ws, log⟩
  | unlock {s ws log i x q k b a n} : ws[i]? = some ⟨x, .ask q k⟩ → S.leave q b a n →
      Step S ⟨s, some (i, b), ws, log⟩ ⟨s, none, ws.set i ⟨x, k a⟩, log ++ [⟨i, .asked q a, some n⟩]⟩

inductive Reach (S : Sections A E α σ ι ν β) (s₀ : σ) : Threads A E α σ ι ν β → Prop
  | init : Reach S s₀ { shared := s₀ }
  | step {T T'} : Reach S s₀ T → Step S T T' → Reach S s₀ T'

/-- `c` is what the threads have come to but for the section under way. -/
structure Within (S : Sections A E α σ ι ν β) (c : σ) (T : Threads A E α σ ι ν β) : Prop where
  idle : T.holder = none → c = T.shared
  busy : ∀ i b, T.holder = some (i, b) → ∃ x q k, T.workers[i]? = some ⟨x, .ask q k⟩ ∧ S.locked q = true ∧
    S.Steps (S.enter q) c b T.shared

end Threads

section

variable {S : Sections A E α σ ι ν β}

theorem Sections.Movers.free_steps (hS : S.Movers) {b b' : β} {c f f' : σ} (h : S.Steps b c b' f) {q : Q} {a : A q} {n : ν}
    (hq : S.locked q = false) (hfree : S.free f q a n f') : ∃ c', S.free c q a n c' ∧ S.Steps b c' b' f' := by
  induction h generalizing f' with
  | refl => exact ⟨f', hfree, .refl⟩
  | snoc _ hstep ih =>
    obtain ⟨m, hm, hstep'⟩ := hS.free _ _ _ _ q a n f' hstep hq hfree
    obtain ⟨c', hc, hsteps⟩ := ih hm
    exact ⟨c', hc, .snoc hsteps hstep'⟩

theorem Sections.Movers.start_steps (hS : S.Movers) {b b' : β} {c f f' : σ} (h : S.Steps b c b' f) {x : ι}
    (hstart : S.start f x f') : ∃ c', S.start c x c' ∧ S.Steps b c' b' f' := by
  induction h generalizing f' with
  | refl => exact ⟨f', hstart, .refl⟩
  | snoc _ hstep ih =>
    obtain ⟨m, hm, hstep'⟩ := hS.start _ _ _ _ x f' hstep hstart
    obtain ⟨c', hc, hsteps⟩ := ih hm
    exact ⟨c', hc, .snoc hsteps hstep'⟩

/-- Somebody else's step leaves a worker in its section where it is. -/
theorem getElem?_set_ask {ws : List (Worker A E α ι)} {i j : Nat} {x y : ι} {q : Q} {k : A q → Prog A E α}
    {p p' : Prog A E α} (hj : ws[j]? = some ⟨y, .ask q k⟩) (hi : ws[i]? = some ⟨x, p⟩) (hne : p ≠ .ask q k) :
    (ws.set i ⟨x, p'⟩)[j]? = some ⟨y, .ask q k⟩ := by
  have hij : i ≠ j := by
    rintro rfl
    rw [hi] at hj
    exact hne (Worker.mk.inj (Option.some.inj hj)).2
  rw [List.getElem?_set_ne hij, hj]

/-- One small step is one of the pool of whole sections, or none. -/
theorem Threads.Within.step (hS : S.Movers) {c : σ} {T T' : Threads A E α σ ι ν β} (h : T.Within S c)
    (hstep : Threads.Step S T T') :
    (T'.Within S c ∧ T'.workers = T.workers ∧ T'.log = T.log) ∨
      ∃ c', T'.Within S c' ∧ Pool.Step S.service ⟨c, T.workers, T.log⟩ ⟨c', T'.workers, T'.log⟩ := by
  cases hstep with
  | @start s s' holder ws log x hstart =>
    right
    cases holder with
    | none =>
      obtain rfl : c = s := h.idle rfl
      exact ⟨s', ⟨fun _ => rfl, by simp⟩, .start hstart⟩
    | some held =>
      obtain ⟨i, b⟩ := held
      obtain ⟨y, q, k, hw, hq, hsteps⟩ := h.busy i b rfl
      obtain ⟨c', hc, hsteps'⟩ := hS.start_steps hsteps hstart
      refine ⟨c', ⟨by simp, fun j b' hj => ?_⟩, .start hc⟩
      obtain ⟨rfl, rfl⟩ := Prod.mk.inj (Option.some.inj hj)
      exact ⟨y, q, k, (List.getElem?_append_left (List.getElem?_eq_some_iff.1 hw).1).trans hw, hq, hsteps'⟩
  | @say s holder ws log i x e k hw =>
    right
    refine ⟨c, ⟨h.idle, fun j b hj => ?_⟩, .say hw⟩
    obtain ⟨y, q, k', hw', hq, hsteps⟩ := h.busy j b hj
    exact ⟨y, q, k', getElem?_set_ask hw' hw (by simp), hq, hsteps⟩
  | @free s s' holder ws log i x q k a n hw hq hfree =>
    right
    cases holder with
    | none =>
      obtain rfl : c = s := h.idle rfl
      exact ⟨s', ⟨fun _ => rfl, by simp⟩, .ask hw (.free hq hfree)⟩
    | some held =>
      obtain ⟨j, b⟩ := held
      obtain ⟨y, q', k', hw', hq', hsteps⟩ := h.busy j b rfl
      obtain ⟨c', hc, hsteps'⟩ := hS.free_steps hsteps hq hfree
      refine ⟨c', ⟨by simp, fun j' b' hj => ?_⟩, .ask hw (.free hq hc)⟩
      obtain ⟨rfl, rfl⟩ := Prod.mk.inj (Option.some.inj hj)
      refine ⟨y, q', k', getElem?_set_ask hw' hw ?_, hq', hsteps'⟩
      intro heq
      obtain ⟨rfl, -⟩ := Prog.ask.inj heq
      rw [hq] at hq'
      cases hq'
  | @lock s ws log i x q k hw hq =>
    left
    refine ⟨⟨by simp, fun j b hj => ?_⟩, rfl, rfl⟩
    obtain ⟨rfl, rfl⟩ := Prod.mk.inj (Option.some.inj hj)
    rw [h.idle rfl]
    exact ⟨x, q, k, hw, hq, .refl⟩
  | @body s s' ws log i b b' hbody =>
    left
    refine ⟨⟨by simp, fun j b₁ hj => ?_⟩, rfl, rfl⟩
    obtain ⟨rfl, rfl⟩ := Prod.mk.inj (Option.some.inj hj)
    obtain ⟨y, q, k, hw, hq, hsteps⟩ := h.busy i b rfl
    exact ⟨y, q, k, hw, hq, .snoc hsteps hbody⟩
  | @unlock s ws log i x q k b a n hw hleave =>
    right
    obtain ⟨y, q', k', hw', hq, hsteps⟩ := h.busy i b rfl
    simp only at hw'
    rw [hw] at hw'
    cases hw'
    exact ⟨s, ⟨fun _ => rfl, by simp⟩, .ask hw (.section hq hsteps hleave)⟩

/-- **Whatever the threads come to, a pool of whole sections comes to**, up to
the section under way: the same workers, with the same log. -/
theorem Threads.Reach.refines (hS : S.Movers) {s₀ : σ} {T : Threads A E α σ ι ν β} (h : Threads.Reach S s₀ T) :
    ∃ c, Pool.Reach S.service s₀ ⟨c, T.workers, T.log⟩ ∧ T.Within S c := by
  induction h with
  | init => exact ⟨s₀, .init, fun _ => rfl, by simp⟩
  | step _ hstep ih =>
    obtain ⟨c, hreach, hwithin⟩ := ih
    rcases hwithin.step hS hstep with ⟨hwithin', hws, hlog⟩ | ⟨c', hwithin', hpool⟩
    · rw [hws, hlog]
      exact ⟨c, hreach, hwithin'⟩
    · exact ⟨c', .step hreach hpool trivial, hwithin'⟩

end

end Progs
