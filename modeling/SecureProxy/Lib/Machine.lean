/-
Machines that take one input at a time: runs, what a run answers, invariants
and simulations. A step may be assumed to meet a condition on the state it is
taken in; `Along` says that every step of a run does.
-/
import Mathlib.Tactic.Common

namespace Machine

variable {σ τ ι ω : Type}

/-- The state after a list of inputs. -/
def run (step : σ → ι → σ × ω) : σ → List ι → σ
  | s, [] => s
  | s, i :: is => run step (step s i).1 is

/-- What is seen after each input: its answer and a view of the state. -/
def observe {ν : Type} (step : σ → ι → σ × ω) (view : σ → ν) : σ → List ι → List (ω × ν)
  | _, [] => []
  | s, i :: is => ((step s i).2, view (step s i).1) :: observe step view (step s i).1 is

/-- Every input of a run meets `ok` in the state it is given in. -/
def Along (ok : σ → ι → Prop) (step : σ → ι → σ × ω) : σ → List ι → Prop
  | _, [] => True
  | s, i :: is => ok s i ∧ Along ok step (step s i).1 is

/-- How many inputs of a run meet a test in the state they are given in. -/
def count (p : σ → ι → Bool) (step : σ → ι → σ × ω) : σ → List ι → Nat
  | _, [] => 0
  | s, i :: is => (p s i).toNat + count p step (step s i).1 is

variable {step : σ → ι → σ × ω} {ok : σ → ι → Prop}

instance decidableAlong [∀ s i, Decidable (ok s i)] : ∀ s is, Decidable (Along ok step s is)
  | _, [] => isTrue trivial
  | s, i :: is =>
    have := decidableAlong (step s i).1 is
    inferInstanceAs (Decidable (ok s i ∧ Along ok step (step s i).1 is))

theorem run_append (step : σ → ι → σ × ω) (s : σ) (is js : List ι) :
    run step s (is ++ js) = run step (run step s is) js := by
  induction is generalizing s with
  | nil => rfl
  | cons i is ih => exact ih _

theorem count_append (p : σ → ι → Bool) (step : σ → ι → σ × ω) (s : σ) (is js : List ι) :
    count p step s (is ++ js) = count p step s is + count p step (run step s is) js := by
  induction is generalizing s with
  | nil => simp [count, run]
  | cons i is ih => simp [count, run, ih, Nat.add_assoc]

theorem along_append {is js : List ι} {s : σ} :
    Along ok step s (is ++ js) ↔ Along ok step s is ∧ Along ok step (run step s is) js := by
  induction is generalizing s with
  | nil => simp [Along, run]
  | cons i is ih => simp [Along, run, ih, and_assoc]

/-- A condition on the inputs alone may be added. -/
theorem Along.and_forall {p : ι → Prop} :
    ∀ {is : List ι} {s : σ}, Along ok step s is → (∀ i ∈ is, p i) → Along (fun s i => ok s i ∧ p i) step s is
  | [], _, _, _ => trivial
  | i :: _, _, h, hp =>
    ⟨⟨h.1, hp i (List.mem_cons_self ..)⟩, h.2.and_forall fun j hj => hp j (List.mem_cons_of_mem _ hj)⟩

/-- What every step keeps, a run keeps. -/
theorem run_invariant {inv : σ → Prop} (hstep : ∀ s i, inv s → ok s i → inv (step s i).1) :
    ∀ {is : List ι} {s : σ}, inv s → Along ok step s is → inv (run step s is)
  | [], _, hs, _ => hs
  | i :: _, s, hs, h => run_invariant (s := (step s i).1) hstep (hstep s i hs h.1) h.2

/-- A simulation that agrees on each answer and view agrees on all of them. -/
theorem observe_eq {ν : Type} {step' : τ → ι → τ × ω} {view : σ → ν} {view' : τ → ν} (R : σ → τ → Prop)
    (hstep : ∀ s t i, R s t → ok s i → R (step s i).1 (step' t i).1 ∧ (step s i).2 = (step' t i).2)
    (hview : ∀ s t, R s t → view s = view' t) :
    ∀ {is : List ι} {s : σ} {t : τ}, R s t → Along ok step s is →
      observe step view s is = observe step' view' t is
  | [], _, _, _, _ => rfl
  | i :: is, s, t, hR, h => by
    obtain ⟨hR', hout⟩ := hstep s t i hR h.1
    simp only [observe, hout, hview _ _ hR', observe_eq R hstep hview hR' h.2]

end Machine
