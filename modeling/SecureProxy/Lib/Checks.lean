/-
Validation as a sequence of checks: each either refuses its input with an
error or lets the next one look at it. What such a sequence accepts is the
conjunction of what its checks accept. A validation may also write as it goes
(`Traced`): what it has written by the time it refuses is seen too.
-/
import Mathlib.Tactic.Common

namespace Checks

variable {ε α β : Type}

/-- Refuse with `e` when `bad` holds. -/
def check (bad : Bool) (e : ε) : Except ε Unit := if bad then .error e else .ok ()

@[simp] theorem check_ok_iff {bad : Bool} {e : ε} {u : Unit} : check bad e = .ok u ↔ bad = false := by
  cases bad <;> simp [check]

theorem bind_ok_iff {x : Except ε α} {f : α → Except ε β} {b : β} :
    (x >>= f) = .ok b ↔ ∃ a, x = .ok a ∧ f a = .ok b := by
  cases x <;> simp [bind, Except.bind]

theorem pure_ok_iff {a b : α} : (pure a : Except ε α) = .ok b ↔ a = b := by
  simp [pure, Except.pure]

theorem check_error_iff {bad : Bool} {e e' : ε} : check bad e = .error e' ↔ bad = true ∧ e = e' := by
  cases bad <;> simp [check]

/-- A sequence refuses with what the first check that refuses says. -/
theorem bind_error_iff {x : Except ε α} {f : α → Except ε β} {e : ε} :
    (x >>= f) = .error e ↔ x = .error e ∨ ∃ a, x = .ok a ∧ f a = .error e := by
  cases x <;> simp [bind, Except.bind]

theorem pure_error_iff {a : α} {e : ε} : (pure a : Except ε α) = .error e ↔ False := by
  simp [pure, Except.pure]

/-- The next check is made where this one does not refuse. -/
theorem ite_error_ok_iff {bad : Prop} [Decidable bad] {e : ε} {x : Except ε α} {a : α} :
    (if bad then .error e else x) = .ok a ↔ ¬ bad ∧ x = .ok a := by
  by_cases h : bad
  · simp [h]
  · simp [h]

/-! ## Checks that write -/

/-- The stores a validation makes, in order, and what it comes to. -/
structure Traced (σ ε α : Type) where
  stores : List σ
  result : Except ε α

namespace Traced

variable {σ : Type}

def bind (x : Traced σ ε α) (f : α → Traced σ ε β) : Traced σ ε β :=
  match x.result with
  | .error e => ⟨x.stores, .error e⟩
  | .ok a => ⟨x.stores ++ (f a).stores, (f a).result⟩

instance : Monad (Traced σ ε) where
  pure a := ⟨[], .ok a⟩
  bind := bind

/-- Write. -/
def tell (ss : List σ) : Traced σ ε Unit := ⟨ss, .ok ()⟩

/-- A check that writes nothing. -/
def lift (x : Except ε α) : Traced σ ε α := ⟨[], x⟩

@[simp] theorem result_pure (a : α) : (pure a : Traced σ ε α).result = .ok a := rfl
@[simp] theorem result_tell (ss : List σ) : (tell ss : Traced σ ε Unit).result = .ok () := rfl
@[simp] theorem result_lift (x : Except ε α) : (lift x : Traced σ ε α).result = x := rfl
@[simp] theorem stores_pure (a : α) : (pure a : Traced σ ε α).stores = [] := rfl
@[simp] theorem stores_tell (ss : List σ) : (tell ss : Traced σ ε Unit).stores = ss := rfl
@[simp] theorem stores_lift (x : Except ε α) : (lift x : Traced σ ε α).stores = [] := rfl

@[simp] theorem result_bind (x : Traced σ ε α) (f : α → Traced σ ε β) :
    (x >>= f).result = x.result >>= fun a => (f a).result := by
  show (bind x f).result = _
  unfold bind
  cases hx : x.result <;> rfl

theorem stores_bind {x : Traced σ ε α} {a : α} (h : x.result = .ok a) (f : α → Traced σ ε β) :
    (x >>= f).stores = x.stores ++ (f a).stores := by
  show (bind x f).stores = _
  unfold bind
  rw [h]

/-- What has been stored when all is well: what the first part stores, and then
the second. -/
theorem stores_of_ok {x : Traced σ ε α} {f : α → Traced σ ε β} {b : β} {ss : List σ}
    (h : ∀ a, x.result = .ok a → (f a).result = .ok b → x.stores ++ (f a).stores = ss) (hb : (x >>= f).result = .ok b) :
    (x >>= f).stores = ss := by
  rw [result_bind, bind_ok_iff] at hb
  obtain ⟨a, ha, hb⟩ := hb
  rw [stores_bind ha]
  exact h a ha hb

/-- What holds of the stores so far and of those to come holds of all. -/
theorem forall_stores_bind {P : σ → Prop} {x : Traced σ ε α} {f : α → Traced σ ε β} (hx : ∀ s ∈ x.stores, P s)
    (hf : ∀ a, x.result = .ok a → ∀ s ∈ (f a).stores, P s) : ∀ s ∈ (x >>= f).stores, P s := by
  intro s hs
  cases hr : x.result with
  | error e =>
    have hstores : (x >>= f).stores = x.stores := by
      show (bind x f).stores = _
      unfold bind
      rw [hr]
    exact hx s (hstores ▸ hs)
  | ok a =>
    rw [stores_bind hr, List.mem_append] at hs
    exact hs.elim (hx s) (hf a hr s)

end Traced

end Checks
