/-
Scanners that go over an array by index. A scanner notes what a proof of its
memory safety is about: each read, with the bound it has to keep to, the places
its loops come to, and the values its variables take. What it computes and what
it notes are then two facts about one definition.

An array is a list; a read behind its end is noted like any other, and yields
some element.
-/
import Mathlib.Control.Monad.Writer
import Mathlib.Data.List.TakeWhile

namespace Reads

variable {α β γ κ : Type}

/-- What a scanner notes; `κ` names its loops. -/
inductive Access (κ : Type) where
  /-- A read by a function that may read below `limit`. -/
  | read (index limit : Nat)
  /-- A loop is at `pos`. -/
  | mark (loop : κ) (pos : Nat)
  /-- A variable is given this value. -/
  | value (n : Nat)
  /-- A loop goes on for longer than it was allowed for. -/
  | stuck
  deriving DecidableEq, Repr

abbrev Reading (κ β : Type) := Writer (List (Access κ)) β

def note (a : Access κ) : Reading κ Unit := WriterT.mk ((), [a])

def result (x : Reading κ β) : β := (Id.run x.run).1

def notes (x : Reading κ β) : List (Access κ) := (Id.run x.run).2

@[simp] theorem result_pure (b : β) : result (pure b : Reading κ β) = b := rfl
@[simp] theorem notes_pure (b : β) : notes (pure b : Reading κ β) = [] := rfl
@[simp] theorem notes_note (a : Access κ) : notes (note a) = [a] := rfl

@[simp] theorem result_bind (x : Reading κ β) (f : β → Reading κ γ) : result (x >>= f) = result (f (result x)) := rfl
@[simp] theorem notes_bind (x : Reading κ β) (f : β → Reading κ γ) :
    notes (x >>= f) = notes x ++ notes (f (result x)) := rfl

@[simp] theorem result_ite {c : Prop} [Decidable c] (x y : Reading κ β) :
    result (if c then x else y) = if c then result x else result y := apply_ite ..
theorem notes_ite {c : Prop} [Decidable c] (x y : Reading κ β) :
    notes (if c then x else y) = if c then notes x else notes y := apply_ite ..

/-! ## Slices -/

/-- The `n` elements from `base` on. -/
def slice (s : List α) (base n : Nat) : List α := (s.drop base).take n

section

variable {s : List α} {base n i m : Nat}

theorem length_slice (h : base + n ≤ s.length) : (slice s base n).length = n := by
  simp only [slice, List.length_take, List.length_drop]
  omega

theorem getElem?_slice (hi : i < n) : (slice s base n)[i]? = s[base + i]? := by
  rw [slice, List.getElem?_take_of_lt hi, List.getElem?_drop]

theorem slice_drop (s : List α) (base n i : Nat) : (slice s base n).drop i = slice s (base + i) (n - i) := by
  rw [slice, slice, List.drop_take, List.drop_drop]

theorem slice_take (h : m ≤ n) : (slice s base n).take m = slice s base m := by
  rw [slice, slice, List.take_take, Nat.min_eq_left h]

/-- The slice between two others. -/
theorem slice_append (front mid back : List α) : slice (front ++ mid ++ back) front.length mid.length = mid := by
  simp [slice]

/-- What stands behind the longest run of elements that meet a test. -/
theorem drop_takeWhile_length (p : α → Bool) (s : List α) : s.drop (s.takeWhile p).length = s.dropWhile p := by
  have hdrop := @List.drop_left _ (s.takeWhile p) (s.dropWhile p)
  rwa [List.takeWhile_append_dropWhile] at hdrop

end

/-! ## Reading -/

section

variable [Inhabited α]

/-- `s[i]`, by a function that may read below `limit`. -/
def readAt (s : List α) (limit i : Nat) : Reading κ α := do
  note (.read i limit)
  pure (s[i]?.getD default)

@[simp] theorem notes_readAt (s : List α) (limit i : Nat) : notes (readAt s limit i : Reading κ α) = [.read i limit] := rfl

@[simp] theorem result_readAt (s : List α) (limit i : Nat) :
    result (readAt s limit i : Reading κ α) = s[i]?.getD default := rfl

/-- An element of a slice, as it is read. -/
theorem getD_slice {s : List α} {base n i : Nat} (h : i < (slice s base n).length) :
    s[base + i]?.getD default = (slice s base n)[i] := by
  have hn : i < n := by
    simp only [slice, List.length_take, List.length_drop] at h
    omega
  rw [← getElem?_slice hn, List.getElem?_eq_getElem h]
  rfl

/-- The last element of a slice. -/
theorem slice_succ {s : List α} {base n : Nat} (h : base + n < s.length) :
    slice s base (n + 1) = slice s base n ++ [s[base + n]?.getD default] := by
  have hget : (s.drop base)[n]? = some s[base + n] := by
    rw [List.getElem?_drop, List.getElem?_eq_getElem h]
  rw [slice, slice, List.take_add_one, hget, List.getElem?_eq_getElem h]
  rfl

/-- The first element of a slice. -/
theorem slice_cons {s : List α} {base n : Nat} (h : base < s.length) :
    slice s base (n + 1) = s[base]?.getD default :: slice s (base + 1) n := by
  rw [slice, slice, List.drop_eq_getElem_cons h, List.take_succ_cons, List.getElem?_eq_getElem h]
  rfl

/-- `while (i < n && p(s[base + i])) i++`. -/
def scanWhile (p : α → Bool) (s : List α) (limit base n i : Nat) : Reading κ Nat :=
  if _h : i < n then do
    let b ← readAt s limit (base + i)
    if p b then scanWhile p s limit base n (i + 1) else pure i
  else pure i
termination_by n - i

variable {p : α → Bool} {s : List α} {limit base n i : Nat}

/-- It stops behind the longest run of elements that meet the test. -/
theorem result_scanWhile (h : base + n ≤ s.length) (hi : i ≤ n) :
    result (scanWhile p s limit base n i : Reading κ Nat) = i + (((slice s base n).drop i).takeWhile p).length := by
  induction hk : n - i generalizing i with
  | zero =>
    have hend : ¬ i < n := by omega
    rw [scanWhile, dif_neg hend, List.drop_of_length_le (by rw [length_slice h]; omega)]
    rfl
  | succ k ih =>
    have hlt : i < n := by omega
    have hlen : i < (slice s base n).length := by rw [length_slice h]; exact hlt
    rw [scanWhile, dif_pos hlt, result_bind, result_ite, result_readAt, getD_slice hlen, List.drop_eq_getElem_cons hlen,
      List.takeWhile_cons]
    by_cases hp : p (slice s base n)[i] = true
    · rw [if_pos hp, if_pos hp, ih (by omega) (by omega), List.length_cons]
      omega
    · rw [if_neg hp, if_neg hp]
      rfl

/-- Every access is a read within the bound. -/
def ReadsBelow (limit : Nat) (as : List (Access κ)) : Prop := ∀ a ∈ as, ∃ i < limit, a = .read i limit

theorem ReadsBelow.nil : ReadsBelow limit ([] : List (Access κ)) := by simp [ReadsBelow]

theorem ReadsBelow.append {as bs : List (Access κ)} (ha : ReadsBelow limit as) (hb : ReadsBelow limit bs) :
    ReadsBelow limit (as ++ bs) := fun a h => (List.mem_append.1 h).elim (ha a) (hb a)

theorem readsBelow_readAt (h : i < limit) : ReadsBelow limit (notes (readAt s limit i : Reading κ α)) := by
  intro a ha
  exact ⟨i, h, by simpa using ha⟩

theorem readsBelow_scanWhile (h : base + n ≤ limit) :
    ReadsBelow limit (notes (scanWhile p s limit base n i : Reading κ Nat)) := by
  induction hk : n - i generalizing i with
  | zero =>
    rw [scanWhile, dif_neg (by omega)]
    exact .nil
  | succ k ih =>
    rw [scanWhile, dif_pos (by omega), notes_bind, notes_ite]
    refine (readsBelow_readAt (by omega)).append ?_
    split
    · exact ih (by omega)
    · exact .nil

end

/-! ## What holds of every access -/

/-- Reads keep to bounds that keep to the array, variables to theirs. -/
def Access.Ok (len bound : Nat) : Access κ → Prop
  | .read i limit => i < limit ∧ limit ≤ len
  | .mark .. => True
  | .value n => n < bound
  | .stuck => False

/-- All is well with a scan, and it does not mark the loop `k`. -/
structure Quiet (len bound : Nat) (k : κ) (as : List (Access κ)) : Prop where
  ok : ∀ a ∈ as, a.Ok len bound
  unmarked : ∀ pos, .mark k pos ∉ as

section

variable {len bound limit : Nat} {k : κ} {as bs : List (Access κ)}

theorem Quiet.nil : Quiet len bound k [] := ⟨by simp, by simp⟩

theorem Quiet.append (ha : Quiet len bound k as) (hb : Quiet len bound k bs) : Quiet len bound k (as ++ bs) :=
  ⟨fun a h => (List.mem_append.1 h).elim (ha.ok a) (hb.ok a),
    fun pos h => (List.mem_append.1 h).elim (ha.unmarked pos) (hb.unmarked pos)⟩

theorem Quiet.mono {len' : Nat} (h : Quiet len bound k as) (hle : len ≤ len') : Quiet len' bound k as := by
  refine ⟨fun a ha => ?_, h.unmarked⟩
  have hok := h.ok a ha
  cases a with
  | read i limit => exact ⟨hok.1, hok.2.trans hle⟩
  | _ => exact hok

theorem Quiet.value {n : Nat} (h : n < bound) : Quiet len bound k [.value n] :=
  ⟨by simpa [Access.Ok] using h, by simp⟩

theorem Quiet.mark {k' : κ} {pos : Nat} (h : k' ≠ k) : Quiet len bound k [.mark k' pos] :=
  ⟨by simp [Access.Ok], by simp [h.symm]⟩

theorem ReadsBelow.quiet (h : ReadsBelow limit as) (hlimit : limit ≤ len) : Quiet len bound k as := by
  refine ⟨fun a ha => ?_, fun pos ha => ?_⟩
  · obtain ⟨i, hi, rfl⟩ := h a ha
    exact ⟨hi, hlimit⟩
  · obtain ⟨i, -, heq⟩ := h _ ha
    cases heq

end

/-! ## Loops that go forward -/

section

variable [DecidableEq κ] {k : κ} {lo lo' hi : Nat} {as bs : List (Access κ)}

/-- The places a loop has come to, in order. -/
def places (k : κ) (as : List (Access κ)) : List Nat :=
  as.filterMap fun
    | .mark k' pos => if k' = k then some pos else none
    | _ => none

/-- A loop only goes forward, from `lo` on and below `hi`. -/
structure Advances (k : κ) (lo hi : Nat) (as : List (Access κ)) : Prop where
  forward : (places k as).Pairwise (· < ·)
  range : ∀ pos ∈ places k as, lo ≤ pos ∧ pos < hi

theorem places_append (k : κ) (as bs : List (Access κ)) : places k (as ++ bs) = places k as ++ places k bs :=
  List.filterMap_append

theorem places_eq_nil (h : ∀ pos, .mark k pos ∉ as) : places k as = [] := by
  refine List.filterMap_eq_nil_iff.2 fun a ha => ?_
  cases a with
  | mark k' pos =>
    by_cases hk : k' = k
    · exact absurd (hk ▸ ha) (h pos)
    · simp [hk]
  | _ => rfl

theorem Advances.quiet (h : ∀ pos, .mark k pos ∉ as) : Advances k lo hi as := by
  have hnil := places_eq_nil h
  exact ⟨by rw [hnil]; exact .nil, by simp [hnil]⟩

/-- What comes before the first mark does not matter. -/
theorem Advances.append (ha : ∀ pos, .mark k pos ∉ as) (hb : Advances k lo hi bs) : Advances k lo hi (as ++ bs) := by
  have heq : places k (as ++ bs) = places k bs := by rw [places_append, places_eq_nil ha, List.nil_append]
  exact ⟨by rw [heq]; exact hb.forward, by rw [heq]; exact hb.range⟩

/-- One round: the loop is at `lo`, and goes on behind it. -/
theorem Advances.round (h : Advances k lo' hi as) (hlt : lo < lo') (hhi : lo < hi) :
    Advances k lo hi (.mark k lo :: as) := by
  have heq : places k (.mark k lo :: as) = lo :: places k as := by simp [places]
  constructor
  · rw [heq, List.pairwise_cons]
    exact ⟨fun pos hpos => Nat.lt_of_lt_of_le hlt (h.range pos hpos).1, h.forward⟩
  · rw [heq]
    intro pos hpos
    rcases List.mem_cons.1 hpos with rfl | hpos
    · exact ⟨Nat.le_refl _, hhi⟩
    · have := h.range pos hpos
      omega

end

end Reads
