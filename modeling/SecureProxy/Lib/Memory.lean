/-
Memory as a C program reaches it from a pointer: bytes numbered from the
pointer on, those behind the end of the object included. A call that writes is
the list of its stores, in order, so that what it does not touch can be said.
-/
import SecureProxy.Lib.Bytes

namespace Memory

open Bytes

/-- The bytes from a pointer on. -/
abbrev Mem := Nat → Byte

/-- One store. -/
structure Write where
  index : Nat
  byte : Byte
  deriving DecidableEq, Repr

def store (m : Mem) (w : Write) : Mem := fun i => if i = w.index then w.byte else m i

def stores (m : Mem) (ws : List Write) : Mem := ws.foldl store m

/-- The `n` bytes from `start` on. -/
def load (m : Mem) (start n : Nat) : List Byte := (List.range n).map fun i => m (start + i)

/-- `memcpy` of `s` to `start`. -/
def copy : Nat → List Byte → List Write
  | _, [] => []
  | start, b :: s => ⟨start, b⟩ :: copy (start + 1) s

/-- The stores of `snprintf` into a buffer of `size` bytes: as much of the text
as it leaves there, and the NUL. -/
def printed (size : Nat) (text : List Byte) : List Write :=
  if size = 0 then [] else copy 0 ((snprintf size text).1 ++ [0])

variable {m : Mem} {s : List Byte} {start size i n : Nat} {w : Write}

@[simp] theorem stores_append (ws ws' : List Write) : stores m (ws ++ ws') = stores (stores m ws) ws' := by
  simp [stores]

theorem index_of_mem_copy (h : w ∈ copy start s) : start ≤ w.index ∧ w.index < start + s.length := by
  induction s generalizing start with
  | nil => simp [copy] at h
  | cons b s ih =>
    rcases List.mem_cons.1 h with rfl | h
    · simp
    · have := ih h
      simp only [List.length_cons]
      omega

/-- A copy leaves all else alone. -/
theorem stores_copy_outside (h : i < start ∨ start + s.length ≤ i) : stores m (copy start s) i = m i := by
  induction s generalizing m start with
  | nil => rfl
  | cons b s ih =>
    simp only [List.length_cons] at h
    have hrest : stores m (copy start (b :: s)) i = stores (store m ⟨start, b⟩) (copy (start + 1) s) i := rfl
    rw [hrest, ih (by omega)]
    exact if_neg (by simp only; omega)

/-- What is copied is there. -/
theorem stores_copy_inside (h : i < s.length) : stores m (copy start s) (start + i) = s[i] := by
  induction s generalizing m start i with
  | nil => simp at h
  | cons b s ih =>
    have hrest : stores m (copy start (b :: s)) = stores (store m ⟨start, b⟩) (copy (start + 1) s) := rfl
    rw [hrest]
    cases i with
    | zero =>
      rw [stores_copy_outside (.inl (by omega))]
      exact if_pos rfl
    | succ i =>
      rw [show start + (i + 1) = start + 1 + i by omega, ih (by simpa using h)]
      rfl

@[simp] theorem length_load : (load m start n).length = n := by simp [load]

theorem load_add (j k : Nat) : load m start (j + k) = load m start j ++ load m (start + j) k := by
  simp [load, List.range_add, Nat.add_assoc, Function.comp_def]

theorem load_congr {m' : Mem} (h : ∀ i < n, m (start + i) = m' (start + i)) : load m start n = load m' start n := by
  refine List.map_congr_left fun i hi => h i (List.mem_range.1 hi)

theorem load_copy (m : Mem) (start : Nat) (s : List Byte) : load (stores m (copy start s)) start s.length = s := by
  refine List.ext_getElem (by simp) fun i hi hs => ?_
  simp [load, stores_copy_inside hs]

/-- A copy behind what is loaded, or before it, does not change it. -/
theorem load_copy_outside (h : start + n ≤ i ∨ i + s.length ≤ start) :
    load (stores m (copy i s)) start n = load m start n :=
  load_congr fun j hj => stores_copy_outside (by omega)

/-! ## `snprintf` -/

/-- It stays within its buffer. -/
theorem index_of_mem_printed (h : w ∈ printed size s) : w.index < size := by
  unfold printed at h
  split at h
  · cases h
  · have := (index_of_mem_copy h).2
    simp only [snprintf, List.length_append, List.length_take, List.length_singleton] at this
    omega

/-- Where the text fits it is there, with the NUL behind it. -/
theorem load_printed (h : s.length < size) (m : Mem) :
    load (stores m (printed size s)) 0 (s.length + 1) = s ++ [0] := by
  have hfits : s.length ≤ size - 1 := by omega
  rw [printed, if_neg (by omega), snprintf, List.take_of_length_le hfits]
  have hlen : s.length + 1 = (s ++ [0]).length := by simp
  rw [hlen, load_copy]

end Memory
