/-
Byte strings as a C program sees them: the character classes and case
mapping of the "C" locale, string constants, and `%u` in decimal. A C string
is the list of its bytes before the terminating NUL.
-/
import Mathlib.Data.Nat.Digits.Lemmas
import Mathlib.Data.List.DropRight

namespace Bytes

abbrev Byte := UInt8

/-- The byte of an ASCII character constant. -/
def ch (c : Char) : Byte := UInt8.ofNat c.toNat

/-- The bytes of an ASCII string constant. -/
def bytes (s : String) : List Byte := s.toList.map ch

/-- A constant is matched as `String.ofList` of its characters, which spares
the kernel the decoding of it. -/
theorem bytes_ofList (l : List Char) : bytes (String.ofList l) = l.map ch := by
  rw [bytes, String.toList_ofList]

theorem length_bytes (l : List Char) : (bytes (String.ofList l)).length = l.length := by
  rw [bytes_ofList, List.length_map]

theorem length_bytes_le {l : List Char} {n : Nat} (h : l.length ≤ n) : (bytes (String.ofList l)).length ≤ n :=
  (length_bytes l).trans_le h

theorem length_append_bytes_le {s : List Byte} {l : List Char} {m n : Nat} (hs : s.length ≤ m) (h : m + l.length ≤ n) :
    (s ++ bytes (String.ofList l)).length ≤ n := by
  rw [List.length_append, length_bytes]
  omega

/-- `isdigit`. -/
def isDigit (b : Byte) : Bool := decide (48 ≤ b) && decide (b ≤ 57)

/-- `isupper`. -/
def isUpper (b : Byte) : Bool := decide (65 ≤ b) && decide (b ≤ 90)

/-- `islower`. -/
def isLower (b : Byte) : Bool := decide (97 ≤ b) && decide (b ≤ 122)

/-- `isalnum`. -/
def isAlnum (b : Byte) : Bool := isDigit b || isUpper b || isLower b

/-- `isspace`. -/
def isSpace (b : Byte) : Bool := b == 32 || (decide (9 ≤ b) && decide (b ≤ 13))

/-- `tolower`. -/
def toLower (b : Byte) : Byte := if isUpper b then b + 32 else b

/-- The value `b - '0'` of a digit. -/
def digitVal (b : Byte) : Nat := b.toNat - 48

/-- `%u`: the decimal digits of a number. -/
def decimal (n : Nat) : List Byte :=
  if n = 0 then [ch '0'] else (Nat.digits 10 n).reverse.map fun d => UInt8.ofNat (48 + d)

/-- `%d`: a sign only where the number is negative. -/
def signedDecimal (n : Int) : List Byte := if n < 0 then ch '-' :: decimal n.natAbs else decimal n.natAbs

/-- `snprintf` of a text into a buffer of `size` bytes: the string it leaves
there, and the length it returns. -/
def snprintf (size : Nat) (text : List Byte) : List Byte × Nat := (text.take (size - 1), text.length)

/-- The number a digit string stands for (`v = v * 10 + (c - '0')` over it). -/
def numVal (ds : List Byte) : Nat := ds.foldl (fun v d => v * 10 + digitVal d) 0

/-- A property of bytes holds when it holds of the 256 of them. -/
theorem forall_byte {P : Byte → Prop} (h : ∀ n < 256, P (UInt8.ofNat n)) : ∀ b, P b := fun b => by
  simpa using h b.toNat b.toNat_lt

/-! ## Decimal numbers -/

theorem isDigit_of_mem_decimal {n : Nat} {b : Byte} (hb : b ∈ decimal n) : isDigit b = true := by
  have key : ∀ d, d < 10 → isDigit (UInt8.ofNat (48 + d)) = true := by decide
  unfold decimal at hb
  split at hb
  · simp only [List.mem_singleton] at hb
    subst hb
    decide
  · simp only [List.mem_map, List.mem_reverse] at hb
    obtain ⟨d, hd, rfl⟩ := hb
    exact key d (Nat.digits_lt_base (by omega) hd)

theorem digitVal_lt : ∀ b, isDigit b = true → digitVal b < 10 := forall_byte (by decide +kernel)

/-- So many digits are less than that power of ten. -/
theorem numVal_lt {ds : List Byte} (h : ∀ d ∈ ds, isDigit d = true) : numVal ds < 10 ^ ds.length := by
  have key : ∀ v, ds.foldl (fun v d => v * 10 + digitVal d) v < (v + 1) * 10 ^ ds.length := by
    induction ds with
    | nil => simp
    | cons d ds ih =>
      intro v
      have hd := digitVal_lt d (h d (by simp))
      calc (d :: ds).foldl (fun v d => v * 10 + digitVal d) v
          < (v * 10 + digitVal d + 1) * 10 ^ ds.length := ih (fun d' hd' => h d' (by simp [hd'])) _
        _ ≤ (v + 1) * 10 * 10 ^ ds.length := Nat.mul_le_mul_right _ (by omega)
        _ = (v + 1) * 10 ^ (d :: ds).length := by rw [List.length_cons, pow_succ]; ring
  have hlt := key 0
  rw [Nat.zero_add, Nat.one_mul] at hlt
  exact hlt

/-- Reading a printed number back gives the number. -/
theorem numVal_decimal (n : Nat) : numVal (decimal n) = n := by
  have key : ∀ d, d < 10 → digitVal (UInt8.ofNat (48 + d)) = d := by decide
  have digits : ∀ ds : List Nat, (∀ d ∈ ds, d < 10) →
      numVal (ds.reverse.map fun d => UInt8.ofNat (48 + d)) = Nat.ofDigits 10 ds := by
    intro ds
    induction ds with
    | nil => intro _; rfl
    | cons d ds ih =>
      intro h
      have hd := key d (h d (by simp))
      have := ih fun e he => h e (by simp [he])
      simp only [numVal] at this ⊢
      simp only [List.reverse_cons, List.map_append, List.map_cons, List.map_nil,
        List.foldl_append, List.foldl_cons, List.foldl_nil, this, hd, Nat.ofDigits_cons]
      ring
  unfold decimal
  split
  · rename_i h; subst h; decide
  · rw [digits _ fun d hd => Nat.digits_lt_base (by omega) hd, Nat.ofDigits_digits]

/-- Two numbers printed alike are equal. -/
theorem decimal_inj {m n : Nat} (h : decimal m = decimal n) : m = n := by
  rw [← numVal_decimal m, ← numVal_decimal n, h]

theorem length_decimal_le {n k : Nat} (hk : 0 < k) (h : n < 10 ^ k) : (decimal n).length ≤ k := by
  unfold decimal
  split
  · simp; omega
  · simpa using (Nat.digits_length_le_iff (by omega) n).2 h

/-! ## Splitting at a delimiter -/

/-- A list is split in one way at the first place where `x` stands. -/
theorem eq_of_first {α : Type} {x : α} : ∀ {a a' c c' : List α}, x ∉ a → x ∉ a' → a ++ x :: c = a' ++ x :: c' →
    a = a' ∧ c = c'
  | [], [], _, _, _, _, h => ⟨rfl, by simpa using h⟩
  | [], y :: a', _, _, _, hy, h => by
    simp only [List.nil_append, List.cons_append, List.cons.injEq] at h
    exact absurd (h.1 ▸ List.mem_cons_self ..) hy
  | y :: a, [], _, _, hy, _, h => by
    simp only [List.nil_append, List.cons_append, List.cons.injEq] at h
    exact absurd (h.1 ▸ List.mem_cons_self ..) hy
  | y :: a, y' :: a', _, _, hy, hy', h => by
    simp only [List.cons_append, List.cons.injEq] at h
    obtain ⟨rfl, h⟩ := h
    obtain ⟨rfl, rfl⟩ := eq_of_first (fun hm => hy (List.mem_cons_of_mem _ hm))
      (fun hm => hy' (List.mem_cons_of_mem _ hm)) h
    exact ⟨rfl, rfl⟩

theorem isDigit_ne_space {b : Byte} (h : isDigit b = true) : b ≠ ch ' ' :=
  forall_byte (P := fun b => isDigit b = true → b ≠ ch ' ') (by decide +kernel) b h

end Bytes
