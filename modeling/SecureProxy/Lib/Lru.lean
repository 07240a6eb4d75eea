/-
A least-recently-used list, most recently used first: what stays of it when
room must be made, and how one key is looked up in it.
-/
import Mathlib.Algebra.Ring.Nat
import Mathlib.Data.Nat.Find
import Mathlib.Algebra.Order.BigOperators.Group.List
import Mathlib.Algebra.Order.BigOperators.Group.Finset

namespace Lru

variable {α β : Type}

/-! ## Making room -/

/-- The total size of a list. -/
def total (size : α → Nat) (l : List α) : Nat := (l.map size).sum

/-- There is room beside `l` for one more item of `len`. -/
def Fits (size : α → Nat) (maxCount maxTotal len : Nat) (l : List α) : Prop :=
  l.length < maxCount ∧ total size l + len ≤ maxTotal

instance (size : α → Nat) (maxCount maxTotal len : Nat) (l : List α) :
    Decidable (Fits size maxCount maxTotal len l) := inferInstanceAs (Decidable (_ ∧ _))

/-- The list less the shortest suffix whose loss makes room for `len`. -/
def shrink (size : α → Nat) (maxCount maxTotal len : Nat) (l : List α) : List α :=
  l.take (Nat.findGreatest (fun k => Fits size maxCount maxTotal len (l.take k)) l.length)

section

variable {size : α → Nat} {maxCount maxTotal len : Nat} {l : List α} {a : α}

theorem total_append (l l' : List α) : total size (l ++ l') = total size l + total size l' := by
  simp [total]

@[simp] theorem total_nil : total size [] = 0 := rfl

@[simp] theorem total_cons (a : α) (l : List α) : total size (a :: l) = size a + total size l := by
  simp [total]

/-- Taking an item out lowers the total by its size. -/
theorem total_middle (size : α → Nat) (front back : List α) (a : α) :
    total size (front ++ a :: back) = size a + total size (front ++ back) := by
  simp only [total_append, total_cons]
  omega

theorem shrink_of_fits (h : Fits size maxCount maxTotal len l) : shrink size maxCount maxTotal len l = l := by
  have hk : Nat.findGreatest (fun k => Fits size maxCount maxTotal len (l.take k)) l.length = l.length := by
    refine Nat.findGreatest_eq_iff.2 ⟨le_refl _, fun _ => by simpa using h, fun _ h1 h2 => ?_⟩
    omega
  rw [shrink, hk, List.take_length]

/-- While the whole list does not fit, its last item goes. -/
theorem shrink_snoc (h : ¬ Fits size maxCount maxTotal len (l ++ [a])) :
    shrink size maxCount maxTotal len (l ++ [a]) = shrink size maxCount maxTotal len l := by
  have hlen : (l ++ [a]).length = l.length + 1 := by simp
  have htake : ∀ k ≤ l.length, (l ++ [a]).take k = l.take k := fun k hk => List.take_append_of_le_length hk
  have hk : Nat.findGreatest (fun k => Fits size maxCount maxTotal len ((l ++ [a]).take k)) (l.length + 1) =
      Nat.findGreatest (fun k => Fits size maxCount maxTotal len (l.take k)) l.length := by
    rw [Nat.findGreatest_of_not (by rwa [← hlen, List.take_length])]
    obtain ⟨h1, h2, h3⟩ := (Nat.findGreatest_eq_iff
      (P := fun k => Fits size maxCount maxTotal len (l.take k)) (k := l.length)).1 rfl
    refine Nat.findGreatest_eq_iff.2 ⟨h1, fun h0 => ?_, fun k hk hkl => ?_⟩
    · rw [htake _ h1]
      exact h2 h0
    · rw [htake _ hkl]
      exact h3 hk hkl
  rw [shrink, shrink, hlen, hk, htake _ (Nat.findGreatest_le _)]

/-- An empty list keeps nothing. -/
@[simp] theorem shrink_nil : shrink size maxCount maxTotal len [] = [] := by simp [shrink]

/-- What is kept fits, if the item would fit alone. -/
theorem shrink_fits (hcount : 0 < maxCount) (hlen : len ≤ maxTotal) :
    Fits size maxCount maxTotal len (shrink size maxCount maxTotal len l) := by
  refine Nat.findGreatest_spec (P := fun k => Fits size maxCount maxTotal len (l.take k)) (Nat.zero_le _) ?_
  simpa [Fits] using ⟨hcount, hlen⟩

/-- What fits in front stays in front. -/
theorem shrink_keeps {front : List α} (h : Fits size maxCount maxTotal len front) (back : List α) :
    ∃ k, shrink size maxCount maxTotal len (front ++ back) = front ++ back.take k := by
  have hfront : Fits size maxCount maxTotal len ((front ++ back).take front.length) := by
    rw [List.take_left]
    exact h
  have hle := Nat.le_findGreatest (P := fun k => Fits size maxCount maxTotal len ((front ++ back).take k))
    (n := (front ++ back).length) (by simp) hfront
  rw [shrink, List.take_append, List.take_of_length_le hle]
  exact ⟨_, rfl⟩

/-- Only the sizes of the list's own items matter. -/
theorem shrink_congr {size' : α → Nat} (h : ∀ a ∈ l, size a = size' a) :
    shrink size maxCount maxTotal len l = shrink size' maxCount maxTotal len l := by
  have hfits : ∀ k, Fits size maxCount maxTotal len (l.take k) ↔ Fits size' maxCount maxTotal len (l.take k) := by
    intro k
    rw [Fits, Fits, total, total, List.map_congr_left fun a ha => h a (List.mem_of_mem_take ha)]
  simp only [shrink, hfits]

theorem shrink_map (f : α → β) (size : β → Nat) :
    shrink size maxCount maxTotal len (l.map f) = (shrink (fun a => size (f a)) maxCount maxTotal len l).map f := by
  have : ∀ l : List α, Fits size maxCount maxTotal len (l.map f) ↔
      Fits (fun a => size (f a)) maxCount maxTotal len l := by
    intro l
    simp [Fits, total, Function.comp_def]
  simp only [shrink, List.length_map, ← List.map_take, this]

end

/-! ## Looking up a key -/

section

variable {κ : Type} [DecidableEq κ] {key : α → κ} {front back l : List α} {a : α}

/-- The item of a key. -/
def find (key : α → κ) (k : κ) (l : List α) : Option α := l.find? fun a => decide (key a = k)

/-- The list without the items of a key. -/
def remove (key : α → κ) (k : κ) (l : List α) : List α := l.filter fun a => decide (key a ≠ k)

theorem find_eq_none {k : κ} (h : ∀ a ∈ l, key a ≠ k) : find key k l = none := by
  simpa [find] using h

theorem remove_eq_self {k : κ} (h : ∀ a ∈ l, key a ≠ k) : remove key k l = l :=
  List.filter_eq_self.2 (by simpa using h)

/-- Where no two items share a key, an item is found by its key. -/
theorem find_middle (h : (front ++ a :: back).Pairwise fun x y => key x ≠ key y) :
    find key (key a) (front ++ a :: back) = some a := by
  obtain ⟨-, -, hcross⟩ := List.pairwise_append.1 h
  have hfront : front.find? (fun x => decide (key x = key a)) = none := by
    simpa using fun x hx => hcross x hx a (by simp)
  simp [find, List.find?_append, hfront]

theorem remove_middle (h : (front ++ a :: back).Pairwise fun x y => key x ≠ key y) :
    remove key (key a) (front ++ a :: back) = front ++ back := by
  obtain ⟨-, hback, hcross⟩ := List.pairwise_append.1 h
  have h1 : remove key (key a) front = front := remove_eq_self fun x hx => hcross x hx a (by simp)
  have h2 : remove key (key a) back = back :=
    remove_eq_self fun x hx => ((List.pairwise_cons.1 hback).1 x hx).symm
  simp only [remove] at h1 h2
  simp only [remove, List.filter_append, List.filter_cons, ne_eq, not_true, decide_false, Bool.false_eq_true,
    if_false]
  rw [h1, h2]

theorem toFinset_keys_subset {keys : Finset κ} (hk : ∀ a ∈ l, key a ∈ keys) : (l.map key).toFinset ⊆ keys := by
  intro k hmem
  obtain ⟨a, ha, rfl⟩ := List.mem_map.1 (List.mem_toFinset.1 hmem)
  exact hk a ha

/-- Items of distinct keys are no more than the keys. -/
theorem length_le_card {keys : Finset κ} (hd : l.Pairwise fun x y => key x ≠ key y) (hk : ∀ a ∈ l, key a ∈ keys) :
    l.length ≤ keys.card := by
  have hnodup : (l.map key).Nodup := List.pairwise_map.2 hd
  calc l.length = (l.map key).toFinset.card := by rw [List.toFinset_card_of_nodup hnodup, List.length_map]
    _ ≤ keys.card := Finset.card_le_card (toFinset_keys_subset hk)

/-- Items of distinct keys are together no larger than the keys' caps. -/
theorem total_le_sum {size : α → Nat} {keys : Finset κ} {cap : κ → Nat}
    (hd : l.Pairwise fun x y => key x ≠ key y) (hk : ∀ a ∈ l, key a ∈ keys ∧ size a ≤ cap (key a)) :
    total size l ≤ ∑ k ∈ keys, cap k := by
  have hnodup : (l.map key).Nodup := List.pairwise_map.2 hd
  calc total size l ≤ ((l.map key).map cap).sum := by
        rw [total, List.map_map]
        exact List.sum_le_sum fun a ha => (hk a ha).2
    _ = ∑ k ∈ (l.map key).toFinset, cap k := (List.sum_toFinset cap hnodup).symm
    _ ≤ ∑ k ∈ keys, cap k := Finset.sum_le_sum_of_subset (toFinset_keys_subset fun a ha => (hk a ha).1)

theorem find_map (f : α → β) (key : β → κ) (k : κ) (l : List α) :
    find key k (l.map f) = (find (fun a => key (f a)) k l).map f := by
  simp [find, List.find?_map, Function.comp_def]

theorem remove_map (f : α → β) (key : β → κ) (k : κ) (l : List α) :
    remove key k (l.map f) = (remove (fun a => key (f a)) k l).map f := by
  simp [remove, List.filter_map, Function.comp_def]

end

end Lru
