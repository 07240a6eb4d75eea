/-
A table of slots in which some are live, each stamped by a logical clock.

The table keeps no order of its own. Its recency order is the list of its
live slots, the one stamped last in front: `Recency` relates the two, and the
slot a scan for the smallest stamp finds is the last of that list.
-/
import Mathlib.Algebra.Ring.Nat
import Mathlib.Data.List.Perm.Basic
import Mathlib.Tactic.Common

namespace Slots

variable {α : Type}

/-! ## One slot is found, or changes -/

/-- The slot a search finds. -/
theorem findIdx?_get {es : List α} {p : α → Bool} {i : Nat} (h : es.findIdx? p = some i) :
    ∃ e, es[i]? = some e ∧ p e = true := by
  obtain ⟨hi, hp, -⟩ := List.findIdx?_eq_some_iff_getElem.1 h
  exact ⟨es[i], List.getElem?_eq_getElem hi, hp⟩

theorem perm_set {es : List α} {i : Nat} {old : α} (h : es[i]? = some old) (new : α) :
    (old :: es.set i new).Perm (new :: es) := by
  obtain ⟨hi, rfl⟩ := List.getElem?_eq_some_iff.1 h
  have h1 := List.set_perm_cons_eraseIdx hi new
  have h2 := List.getElem_cons_eraseIdx_perm hi
  calc (es[i] :: es.set i new).Perm (es[i] :: new :: es.eraseIdx i) := h1.cons _
    _ |>.Perm (new :: es[i] :: es.eraseIdx i) := List.Perm.swap ..
    _ |>.Perm (new :: es) := h2.cons _

/-- A slot changes, and with it the number of slots that meet a test. -/
theorem countP_set {es : List α} {i : Nat} {old : α} (h : es[i]? = some old) (new : α) (p : α → Bool) :
    (es.set i new).countP p + (p old).toNat = es.countP p + (p new).toNat := by
  have hif : ∀ x, (if p x = true then 1 else 0) = (p x).toNat := fun x => by cases p x <;> rfl
  have hcount := (perm_set h new).countP_eq p
  rwa [List.countP_cons, List.countP_cons, hif, hif] at hcount

/-- Where every slot meets as many of the tests `ps` as of `qs`, the slots that
meet them are as many, counted once for each test. -/
theorem sum_countP {es : List α} {ps qs : List (α → Bool)}
    (h : ∀ e ∈ es, (ps.map fun p => (p e).toNat).sum = (qs.map fun q => (q e).toNat).sum) :
    (ps.map fun p => es.countP p).sum = (qs.map fun q => es.countP q).sum := by
  have hcons : ∀ (rs : List (α → Bool)) (e : α) (es : List α), (rs.map fun r => (e :: es).countP r).sum =
      (rs.map fun r => es.countP r).sum + (rs.map fun r => (r e).toNat).sum := by
    intro rs e es
    induction rs with
    | nil => rfl
    | cons r rs ih =>
      have hif : (if r e = true then 1 else 0) = (r e).toNat := by cases r e <;> rfl
      rw [List.map_cons, List.sum_cons, ih, List.countP_cons, hif]
      simp only [List.map_cons, List.sum_cons]
      omega
  induction es with
  | nil => simp
  | cons e es ih =>
    rw [hcons, hcons, h e List.mem_cons_self, ih fun e' he' => h e' (List.mem_cons_of_mem _ he')]

/-! ## The scan -/

/-- The first live slot with the smallest stamp, as its index and stamp.
`best` is the one found before the slot at index `i`. -/
def leastScan (live : α → Bool) (stamp : α → Nat) : List α → Nat → Option (Nat × Nat) → Option (Nat × Nat)
  | [], _, best => best
  | e :: es, i, best =>
    leastScan live stamp es (i + 1)
      (if live e && best.all fun b => decide (stamp e < b.2) then some (i, stamp e) else best)

variable {live : α → Bool} {stamp : α → Nat}

/-- `best` names a live slot of `es` and no live slot of it is older. -/
def IsLeast (live : α → Bool) (stamp : α → Nat) (es : List α) (best : Option (Nat × Nat)) : Prop :=
  match best with
  | none => ∀ e ∈ es, live e = false
  | some (i, t) => (∃ e, es[i]? = some e ∧ live e ∧ stamp e = t) ∧ ∀ e ∈ es, live e → t ≤ stamp e

theorem IsLeast.snoc {es : List α} {best : Option (Nat × Nat)} (h : IsLeast live stamp es best) (e : α) :
    IsLeast live stamp (es ++ [e])
      (if live e && best.all fun b => decide (stamp e < b.2) then some (es.length, stamp e) else best) := by
  cases best with
  | none =>
    simp only [IsLeast] at h
    cases he : live e with
    | false =>
      simp only [Bool.false_and, Bool.false_eq_true, if_false, IsLeast, List.mem_append, List.mem_singleton]
      rintro x (hx | rfl)
      · exact h x hx
      · exact he
    | true =>
      refine ⟨⟨e, by simp, he, rfl⟩, ?_⟩
      simp only [List.mem_append, List.mem_singleton]
      rintro x (hx | rfl) hlive
      · simp [h x hx] at hlive
      · exact Nat.le_refl _
  | some b =>
    obtain ⟨i, t⟩ := b
    obtain ⟨⟨x, hx, hxl, hxt⟩, hmin⟩ := h
    have hi := (List.getElem?_eq_some_iff.1 hx).1
    by_cases hc : live e = true ∧ stamp e < t
    · simp only [hc.1, Option.all_some, hc.2, decide_true, Bool.and_self, if_true]
      refine ⟨⟨e, by simp, hc.1, rfl⟩, ?_⟩
      simp only [List.mem_append, List.mem_singleton]
      rintro y (hy | rfl) hlive
      · exact Nat.le_trans (Nat.le_of_lt hc.2) (hmin y hy hlive)
      · exact Nat.le_refl _
    · have hc' : (live e && Option.all (fun b => decide (stamp e < b.2)) (some (i, t))) = false := by
        simpa [Bool.and_eq_false_iff, imp_iff_not_or] using hc
      rw [hc']
      simp only [Bool.false_eq_true, if_false]
      refine ⟨⟨x, by rw [List.getElem?_append_left hi, hx], hxl, hxt⟩, ?_⟩
      simp only [List.mem_append, List.mem_singleton]
      rintro y (hy | rfl) hlive
      · exact hmin y hy hlive
      · exact Nat.le_of_not_lt fun h => hc ⟨hlive, h⟩

theorem leastScan_isLeast_aux (rest : List α) {done : List α} {best : Option (Nat × Nat)} (h : IsLeast live stamp done best) :
    IsLeast live stamp (done ++ rest) (leastScan live stamp rest done.length best) := by
  induction rest generalizing done best with
  | nil => simpa [leastScan] using h
  | cons e es ih =>
    have := ih (h.snoc e)
    simpa [leastScan] using this

theorem leastScan_isLeast (es : List α) : IsLeast live stamp es (leastScan live stamp es 0 none) := by
  have hnil : IsLeast live stamp [] none := by simp [IsLeast]
  simpa using leastScan_isLeast_aux es hnil

/-! ## The recency order -/

/-- `order` lists the live slots of `es`, the most recently stamped first. -/
structure Recency (live : α → Bool) (stamp : α → Nat) (es order : List α) : Prop where
  perm : order.Perm (es.filter live)
  sorted : order.Pairwise fun a b => stamp b < stamp a

namespace Recency

variable {es order front back : List α} {i : Nat} {old new : α}

theorem mem_iff (h : Recency live stamp es order) {e : α} : e ∈ order ↔ e ∈ es ∧ live e = true := by
  rw [h.perm.mem_iff, List.mem_filter]

/-- A live slot stands somewhere in the order. -/
theorem split (h : Recency live stamp es order) (hi : es[i]? = some old) (hl : live old = true) :
    ∃ front back, order = front ++ old :: back :=
  List.append_of_mem (h.mem_iff.2 ⟨List.mem_of_getElem? hi, hl⟩)

/-- Freeing a slot takes it out of the order. -/
theorem free (h : Recency live stamp es (front ++ old :: back)) (hi : es[i]? = some old) (hl : live old = true)
    (hn : live new = false) : Recency live stamp (es.set i new) (front ++ back) := by
  refine ⟨?_, h.sorted.sublist (by simp)⟩
  have hp : (old :: (es.set i new).filter live).Perm (es.filter live) := by
    simpa [hl, hn] using (perm_set hi new).filter live
  refine List.Perm.cons_inv (a := old) ?_
  exact (List.perm_middle.symm.trans h.perm).trans hp.symm

/-- Filling a free slot with the newest stamp puts it in front. -/
theorem fill (h : Recency live stamp es order) (hi : es[i]? = some old) (hl : live old = false)
    (hn : live new = true) (hnew : ∀ e ∈ order, stamp e < stamp new) :
    Recency live stamp (es.set i new) (new :: order) := by
  refine ⟨?_, List.pairwise_cons.2 ⟨hnew, h.sorted⟩⟩
  have hp : ((es.set i new).filter live).Perm (new :: es.filter live) := by
    simpa [hl, hn] using (perm_set hi new).filter live
  exact (h.perm.cons new).trans hp.symm

/-- Overwriting a live slot with the newest stamp moves it to the front. -/
theorem touch (h : Recency live stamp es (front ++ old :: back)) (hi : es[i]? = some old) (hl : live old = true)
    (hn : live new = true) (hnew : ∀ e ∈ front ++ old :: back, stamp e < stamp new) :
    Recency live stamp (es.set i new) (new :: (front ++ back)) := by
  have hsub : (front ++ back).Sublist (front ++ old :: back) := by simp
  refine ⟨?_, List.pairwise_cons.2 ⟨fun e he => hnew e (hsub.subset he), h.sorted.sublist hsub⟩⟩
  have hp : (old :: (es.set i new).filter live).Perm (new :: es.filter live) := by
    simpa [hl, hn] using (perm_set hi new).filter live
  refine List.Perm.cons_inv (a := old) ?_
  calc (old :: new :: (front ++ back)).Perm (new :: old :: (front ++ back)) := List.Perm.swap ..
    _ |>.Perm (new :: (front ++ old :: back)) := List.perm_middle.symm.cons new
    _ |>.Perm (new :: es.filter live) := h.perm.cons new
    _ |>.Perm (old :: (es.set i new).filter live) := hp.symm

/-- The scan finds nothing exactly in an empty table. -/
theorem leastScan_eq_none_iff (h : Recency live stamp es order) :
    leastScan live stamp es 0 none = none ↔ order = [] := by
  have hl : IsLeast live stamp es (leastScan live stamp es 0 none) := leastScan_isLeast es
  constructor
  · intro hn
    rw [hn] at hl
    refine List.eq_nil_iff_forall_not_mem.2 fun e he => ?_
    obtain ⟨hmem, hlive⟩ := h.mem_iff.1 he
    simp [hl e hmem] at hlive
  · rintro rfl
    cases hs : leastScan live stamp es 0 none with
    | none => rfl
    | some b =>
      rw [hs] at hl
      obtain ⟨⟨e, he, hlive, -⟩, -⟩ := hl
      exact absurd (h.mem_iff.2 ⟨List.mem_of_getElem? he, hlive⟩) (by simp)

/-- The slot the scan finds is the last of the order. -/
theorem leastScan_eq_some (h : Recency live stamp es (front ++ [old])) :
    ∃ i t, leastScan live stamp es 0 none = some (i, t) ∧ es[i]? = some old := by
  have hl : IsLeast live stamp es (leastScan live stamp es 0 none) := leastScan_isLeast es
  cases hs : leastScan live stamp es 0 none with
  | none => simp [h.leastScan_eq_none_iff] at hs
  | some b =>
    obtain ⟨i, t⟩ := b
    rw [hs] at hl
    obtain ⟨⟨e, he, hlive, rfl⟩, hmin⟩ := hl
    refine ⟨i, stamp e, rfl, ?_⟩
    have hold := h.mem_iff.1 (show old ∈ front ++ [old] by simp)
    have hle := hmin old hold.1 hold.2
    -- any other slot of the order is stamped later than its last
    have hmem : e ∈ front ++ [old] := h.mem_iff.2 ⟨List.mem_of_getElem? he, hlive⟩
    rcases List.mem_append.1 hmem with hf | hf
    · have := (List.pairwise_append.1 h.sorted).2.2 e hf old (by simp)
      omega
    · rw [List.mem_singleton.1 hf] at he
      exact he

end Recency

end Slots
