/-
Programs that run beside others: a program says what it does and asks the
state it shares with the rest, whose answers it does not control.

`Runs ok p t r`: the program `p` can finish with `r` after the trace `t`, the
answers in it being among those `ok` admits. `Leads ok p t p'`: it can have
come as far as `p'`.
-/
import Mathlib.Tactic.Common

namespace Progs

/-- Questions `Q` with answers `A`, things said `E`. -/
inductive Prog {Q : Type} (A : Q → Type) (E : Type) (α : Type) where
  | pure (a : α)
  | say (e : E) (k : Prog A E α)
  | ask (q : Q) (k : A q → Prog A E α)

/-- One entry of a trace. -/
inductive Obs {Q : Type} (A : Q → Type) (E : Type) where
  | said (e : E)
  | asked (q : Q) (a : A q)

variable {Q : Type} {A : Q → Type} {E α β : Type}

namespace Prog

def bind : Prog A E α → (α → Prog A E β) → Prog A E β
  | .pure a, f => f a
  | .say e k, f => .say e (k.bind f)
  | .ask q k, f => .ask q fun a => (k a).bind f

instance : Monad (Prog A E) where
  pure := Prog.pure
  bind := Prog.bind

/-- Say one thing. -/
def tell (e : E) : Prog A E Unit := .say e (.pure ())

/-- Say a list of things, in order. -/
def tells : List E → Prog A E Unit
  | [] => .pure ()
  | e :: es => .say e (tells es)

/-- Ask, and go on with the answer. -/
def query (q : Q) : Prog A E (A q) := .ask q .pure

end Prog

/-! ## Runs -/

/-- Complete runs of a program. -/
inductive Runs (ok : (q : Q) → A q → Prop) : Prog A E α → List (Obs A E) → α → Prop
  | pure {a : α} : Runs ok (.pure a) [] a
  | say {e : E} {k : Prog A E α} {t : List (Obs A E)} {r : α} : Runs ok k t r → Runs ok (.say e k) (.said e :: t) r
  | ask {q : Q} {k : A q → Prog A E α} {a : A q} {t : List (Obs A E)} {r : α} :
      ok q a → Runs ok (k a) t r → Runs ok (.ask q k) (.asked q a :: t) r

/-- Runs of a program up to some point of it. -/
inductive Leads (ok : (q : Q) → A q → Prop) : Prog A E α → List (Obs A E) → Prog A E α → Prop
  | here {p : Prog A E α} : Leads ok p [] p
  | say {e : E} {k p : Prog A E α} {t : List (Obs A E)} : Leads ok k t p → Leads ok (.say e k) (.said e :: t) p
  | ask {q : Q} {k : A q → Prog A E α} {a : A q} {t : List (Obs A E)} {p : Prog A E α} :
      ok q a → Leads ok (k a) t p → Leads ok (.ask q k) (.asked q a :: t) p

section

variable {ok : (q : Q) → A q → Prop} {t : List (Obs A E)} {r : β}

@[simp] theorem runs_pure_iff {a b : α} : Runs ok (pure a : Prog A E α) t b ↔ t = [] ∧ b = a := by
  constructor
  · intro h
    cases h
    exact ⟨rfl, rfl⟩
  · intro h'
    obtain ⟨rfl, rfl⟩ := h'
    exact .pure

theorem runs_bind_iff {p : Prog A E α} {f : α → Prog A E β} :
    Runs ok (p >>= f) t r ↔ ∃ t₁ a t₂, Runs ok p t₁ a ∧ Runs ok (f a) t₂ r ∧ t = t₁ ++ t₂ := by
  constructor
  · intro h
    induction p generalizing t with
    | pure a => exact ⟨[], a, t, .pure, h, rfl⟩
    | say e k ih =>
      cases h with
      | say h =>
        obtain ⟨t₁, a, t₂, h₁, h₂, rfl⟩ := ih h
        exact ⟨_, a, t₂, .say h₁, h₂, rfl⟩
    | ask q k ih =>
      cases h with
      | ask hok h =>
        obtain ⟨t₁, a, t₂, h₁, h₂, rfl⟩ := ih _ h
        exact ⟨_, a, t₂, .ask hok h₁, h₂, rfl⟩
  · intro h'
    obtain ⟨t₁, a, t₂, h₁, h₂, rfl⟩ := h'
    induction h₁ with
    | pure => exact h₂
    | say _ ih => exact .say (ih h₂)
    | ask hok _ ih => exact .ask hok (ih h₂)

theorem runs_tell_iff {e : E} {u : Unit} : Runs ok (Prog.tell e) t u ↔ t = [.said e] := by
  constructor
  · intro h
    cases h with
    | say h =>
      cases h
      rfl
  · rintro rfl
    exact .say .pure

theorem runs_tells_iff {es : List E} {u : Unit} : Runs ok (Prog.tells es) t u ↔ t = es.map .said := by
  induction es generalizing t with
  | nil => exact ⟨fun h => by cases h; rfl, fun h => h ▸ .pure⟩
  | cons e es ih =>
    constructor
    · intro h
      cases h with
      | say h => rw [ih.1 h, List.map_cons]
    · rintro rfl
      exact .say (ih.2 rfl)

theorem runs_query_iff {q : Q} {a : A q} : Runs ok (Prog.query q) t a ↔ ok q a ∧ t = [.asked q a] := by
  constructor
  · intro h
    cases h with
    | ask hok h =>
      cases h
      exact ⟨hok, rfl⟩
  · intro h'
    obtain ⟨hok, rfl⟩ := h'
    exact .ask hok .pure

end

/-! ## What a program can ask and say -/

/-- Every question of the program is one of `onAsk`, all it says is in `onSay`. -/
def Prog.All (onAsk : Q → Prop) (onSay : E → Prop) : Prog A E α → Prop
  | .pure _ => True
  | .say e k => onSay e ∧ k.All onAsk onSay
  | .ask q k => onAsk q ∧ ∀ a, (k a).All onAsk onSay

section

variable {onAsk : Q → Prop} {onSay : E → Prop}

theorem Prog.All.mono {onAsk' : Q → Prop} {onSay' : E → Prop} {p : Prog A E α} (hp : p.All onAsk onSay)
    (hask : ∀ q, onAsk q → onAsk' q) (hsay : ∀ e, onSay e → onSay' e) : p.All onAsk' onSay' := by
  induction p with
  | pure a => trivial
  | say e k ih => exact ⟨hsay e hp.1, ih hp.2⟩
  | ask q k ih => exact ⟨hask q hp.1, fun a => ih a (hp.2 a)⟩

theorem Runs.all {ok : (q : Q) → A q → Prop} {p : Prog A E α} {t : List (Obs A E)} {r : α} (h : Runs ok p t r)
    (hp : p.All onAsk onSay) : (∀ e, .said e ∈ t → onSay e) ∧ ∀ q a, .asked q a ∈ t → onAsk q := by
  induction h with
  | pure => simp
  | say _ ih =>
    obtain ⟨h1, h2⟩ := ih hp.2
    refine ⟨fun e he => ?_, fun q a hq => ?_⟩
    · rcases List.mem_cons.1 he with heq | he
      · cases heq
        exact hp.1
      · exact h1 e he
    · rcases List.mem_cons.1 hq with heq | hq
      · cases heq
      · exact h2 q a hq
  | ask _ _ ih =>
    obtain ⟨h1, h2⟩ := ih (hp.2 _)
    refine ⟨fun e he => ?_, fun q a hq => ?_⟩
    · rcases List.mem_cons.1 he with heq | he
      · cases heq
      · exact h1 e he
    · rcases List.mem_cons.1 hq with heq | hq
      · cases heq
        exact hp.1
      · exact h2 q a hq

end

/-- The same, and what it returns is in `post`, whatever it is answered. -/
def Prog.Spec (onAsk : Q → Prop) (onSay : E → Prop) (post : α → Prop) : Prog A E α → Prop
  | .pure a => post a
  | .say e k => onSay e ∧ k.Spec onAsk onSay post
  | .ask q k => onAsk q ∧ ∀ a, (k a).Spec onAsk onSay post

section

variable {onAsk : Q → Prop} {onSay : E → Prop} {post : α → Prop}

theorem spec_pure {a : α} (h : post a) : (pure a : Prog A E α).Spec onAsk onSay post := h

theorem Prog.Spec.bind {mid : α → Prop} {post : β → Prop} {p : Prog A E α} {f : α → Prog A E β}
    (hp : p.Spec onAsk onSay mid) (hf : ∀ a, mid a → (f a).Spec onAsk onSay post) :
    (p >>= f).Spec onAsk onSay post := by
  induction p with
  | pure a => exact hf a hp
  | say e k ih => exact ⟨hp.1, ih hp.2⟩
  | ask q k ih => exact ⟨hp.1, fun a => ih a (hp.2 a)⟩

theorem spec_tell {e : E} (h : onSay e) : (Prog.tell e : Prog A E Unit).Spec onAsk onSay fun _ => True := ⟨h, trivial⟩

theorem spec_tells {es : List E} (h : ∀ e ∈ es, onSay e) :
    (Prog.tells es : Prog A E Unit).Spec onAsk onSay fun _ => True := by
  induction es with
  | nil => trivial
  | cons e es ih => exact ⟨h e (by simp), ih fun e' he => h e' (by simp [he])⟩

theorem spec_query {q : Q} (h : onAsk q) : (Prog.query q : Prog A E (A q)).Spec onAsk onSay fun _ => True :=
  ⟨h, fun _ => trivial⟩

theorem Prog.Spec.mono {onAsk' : Q → Prop} {onSay' : E → Prop} {p : Prog A E α} (hp : p.Spec onAsk onSay post)
    (hask : ∀ q, onAsk q → onAsk' q) (hsay : ∀ e, onSay e → onSay' e) : p.Spec onAsk' onSay' post := by
  induction p with
  | pure a => exact hp
  | say e k ih => exact ⟨hsay e hp.1, ih hp.2⟩
  | ask q k ih => exact ⟨hask q hp.1, fun a => ih a (hp.2 a)⟩

theorem Prog.Spec.all {p : Prog A E α} (hp : p.Spec onAsk onSay post) : p.All onAsk onSay := by
  induction p with
  | pure a => trivial
  | say e k ih => exact ⟨hp.1, ih hp.2⟩
  | ask q k ih => exact ⟨hp.1, fun a => ih a (hp.2 a)⟩

theorem Runs.returns {ok : (q : Q) → A q → Prop} {p : Prog A E α} {t : List (Obs A E)} {r : α} (h : Runs ok p t r)
    (hp : p.Spec onAsk onSay post) : post r := by
  induction h with
  | pure => exact hp
  | say _ ih => exact ih hp.2
  | ask _ _ ih => exact ih (hp.2 _)

end

/-! ## Postconditions -/

/-- Every run, with what it returns, is in `post`. -/
def Ensures (ok : (q : Q) → A q → Prop) (p : Prog A E α) (post : List (Obs A E) → α → Prop) : Prop :=
  ∀ t r, Runs ok p t r → post t r

section

variable {ok : (q : Q) → A q → Prop}

theorem ensures_pure {post : List (Obs A E) → α → Prop} {a : α} (h : post [] a) :
    Ensures ok (pure a : Prog A E α) post := by
  intro t r hrun
  obtain ⟨rfl, rfl⟩ := runs_pure_iff.1 hrun
  exact h

/-- The trace of the first part is the beginning of the whole. -/
theorem Ensures.bind {mid : List (Obs A E) → α → Prop} {post : List (Obs A E) → β → Prop} {p : Prog A E α}
    {f : α → Prog A E β} (hp : Ensures ok p mid)
    (hf : ∀ t a, mid t a → Ensures ok (f a) fun t' r => post (t ++ t') r) : Ensures ok (p >>= f) post := by
  intro t r hrun
  obtain ⟨t₁, a, t₂, h₁, h₂, rfl⟩ := runs_bind_iff.1 hrun
  exact hf t₁ a (hp t₁ a h₁) t₂ r h₂

theorem ensures_tell {post : List (Obs A E) → α → Prop} {e : E} {f : Unit → Prog A E α}
    (h : Ensures ok (f ()) fun t r => post (.said e :: t) r) : Ensures ok (Prog.tell e >>= f) post := by
  intro t r hrun
  obtain ⟨t₁, u, t₂, h₁, h₂, rfl⟩ := runs_bind_iff.1 hrun
  rw [runs_tell_iff.1 h₁]
  exact h t₂ r h₂

theorem ensures_tells {post : List (Obs A E) → α → Prop} {es : List E} {f : Unit → Prog A E α}
    (h : Ensures ok (f ()) fun t r => post (es.map .said ++ t) r) : Ensures ok (Prog.tells es >>= f) post := by
  intro t r hrun
  obtain ⟨t₁, u, t₂, h₁, h₂, rfl⟩ := runs_bind_iff.1 hrun
  rw [runs_tells_iff.1 h₁]
  exact h t₂ r h₂

theorem ensures_query {post : List (Obs A E) → α → Prop} {q : Q} {f : A q → Prog A E α}
    (h : ∀ a, ok q a → Ensures ok (f a) fun t r => post (.asked q a :: t) r) : Ensures ok (Prog.query q >>= f) post := by
  intro t r hrun
  obtain ⟨t₁, a, t₂, h₁, h₂, rfl⟩ := runs_bind_iff.1 hrun
  obtain ⟨hok, rfl⟩ := runs_query_iff.1 h₁
  exact h a hok t₂ r h₂

theorem Ensures.mono {post post' : List (Obs A E) → α → Prop} {p : Prog A E α} (h : Ensures ok p post)
    (hpost : ∀ t r, post t r → post' t r) : Ensures ok p post' := fun t r hrun => hpost t r (h t r hrun)

end

/-! ## Runs under an oracle -/

/-- The run in which every question has a fixed answer. -/
def runWith (oracle : (q : Q) → A q) : Prog A E α → List (Obs A E) × α
  | .pure a => ([], a)
  | .say e k => let (t, r) := runWith oracle k; (.said e :: t, r)
  | .ask q k => let (t, r) := runWith oracle (k (oracle q)); (.asked q (oracle q) :: t, r)

theorem runs_runWith {ok : (q : Q) → A q → Prop} {oracle : (q : Q) → A q} (hok : ∀ q, ok q (oracle q))
    (p : Prog A E α) : Runs ok p (runWith oracle p).1 (runWith oracle p).2 := by
  induction p with
  | pure a => exact .pure
  | say e k ih => exact .say ih
  | ask q k ih => exact .ask (hok q) (ih _)

/-! ## Partial runs -/

section

variable {ok : (q : Q) → A q → Prop} {p p' p'' : Prog A E α} {t t' : List (Obs A E)} {r : α}

theorem Leads.trans (h : Leads ok p t p') (h' : Leads ok p' t' p'') : Leads ok p (t ++ t') p'' := by
  induction h with
  | here => exact h'
  | say _ ih => exact .say (ih h')
  | ask hok _ ih => exact .ask hok (ih h')

theorem Leads.runs (h : Leads ok p t p') (h' : Runs ok p' t' r) : Runs ok p (t ++ t') r := by
  induction h with
  | here => exact h'
  | say _ ih => exact .say (ih h')
  | ask hok _ ih => exact .ask hok (ih h')

theorem Runs.asked {q : Q} {a : A q} (h : Runs ok p t r) (hm : .asked q a ∈ t) : ok q a := by
  induction h with
  | pure => cases hm
  | say _ ih =>
    rcases List.mem_cons.1 hm with heq | hm
    · cases heq
    · exact ih hm
  | ask hok _ ih =>
    rcases List.mem_cons.1 hm with heq | hm
    · cases heq
      exact hok
    · exact ih hm

/-- A partial run is one under any rule its answers keep to. -/
theorem Leads.answers {ok' : (q : Q) → A q → Prop} (h : Leads ok p t p') (hans : ∀ q a, .asked q a ∈ t → ok' q a) :
    Leads ok' p t p' := by
  induction h with
  | here => exact .here
  | say _ ih => exact .say (ih fun q a hm => hans q a (List.mem_cons_of_mem _ hm))
  | ask _ _ ih => exact .ask (hans _ _ List.mem_cons_self) (ih fun q a hm => hans q a (List.mem_cons_of_mem _ hm))

/-- What a program asks and says on the way is what it can ask and say. -/
theorem Leads.all {onAsk : Q → Prop} {onSay : E → Prop} (h : Leads ok p t p') (hp : p.All onAsk onSay) :
    (∀ e, .said e ∈ t → onSay e) ∧ ∀ q a, .asked q a ∈ t → onAsk q := by
  induction h with
  | here => simp
  | say _ ih =>
    obtain ⟨h1, h2⟩ := ih hp.2
    refine ⟨fun e he => ?_, fun q a hq => ?_⟩
    · rcases List.mem_cons.1 he with heq | he
      · cases heq
        exact hp.1
      · exact h1 e he
    · rcases List.mem_cons.1 hq with heq | hq
      · cases heq
      · exact h2 q a hq
  | ask _ _ ih =>
    obtain ⟨h1, h2⟩ := ih (hp.2 _)
    refine ⟨fun e he => ?_, fun q a hq => ?_⟩
    · rcases List.mem_cons.1 he with heq | he
      · cases heq
      · exact h1 e he
    · rcases List.mem_cons.1 hq with heq | hq
      · cases heq
        exact hp.1
      · exact h2 q a hq

/-- Where every question has an answer, a partial run can be completed. -/
theorem Leads.completes (h : Leads ok p t p') (hok : ∀ q, ∃ a, ok q a) : ∃ t' r, Runs ok p (t ++ t') r := by
  choose oracle horacle using hok
  exact ⟨_, _, h.runs (runs_runWith horacle p')⟩

end

end Progs
