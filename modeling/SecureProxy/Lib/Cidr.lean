/-
Networks of addresses. An address is a number, spelled by its bytes with the
most significant first; a network is the run of addresses that agree with it
above its free bits. Testing it by its leading bytes, or with a mask, comes to
the same.
-/
import SecureProxy.Lib.Bytes

namespace Cidr

open Bytes

/-! ## The number a list of bytes spells -/

def number (bs : List Byte) : Nat := Nat.ofDigits 256 (bs.reverse.map (·.toNat))

theorem number_append (hi lo : List Byte) : number (hi ++ lo) = number hi * 256 ^ lo.length + number lo := by
  simp only [number, List.reverse_append, List.map_append, Nat.ofDigits_append, List.length_map, List.length_reverse]
  ring

theorem digit_lt {bs : List Byte} {d : Nat} (hd : d ∈ bs.reverse.map (·.toNat)) : d < 256 := by
  obtain ⟨b, -, rfl⟩ := List.mem_map.1 hd
  exact b.toNat_lt

theorem number_lt (bs : List Byte) : number bs < 256 ^ bs.length := by
  have h := Nat.ofDigits_lt_base_pow_length (by decide : 1 < 256) fun _ => @digit_lt bs _
  simpa [number] using h

/-- Bytes of one length are told apart by their number. -/
theorem number_inj {as bs : List Byte} (hlen : as.length = bs.length) : number as = number bs ↔ as = bs := by
  refine ⟨fun h => ?_, fun h => h ▸ rfl⟩
  have hdigits := Nat.ofDigits_inj_of_len_eq (by decide : 1 < 256) (by simpa using hlen) (fun _ => digit_lt)
    (fun _ => digit_lt) h
  exact List.reverse_inj.1 (List.map_injective_iff.2 (fun _ _ => UInt8.toNat.inj) hdigits)

/-- Bytes in the middle are the bits there. -/
theorem number_middle (hi mid lo : List Byte) {m l : Nat} (hm : 256 ^ mid.length = m) (hl : 256 ^ lo.length = l) :
    number (hi ++ (mid ++ lo)) / l % m = number mid := by
  subst hm hl
  rw [← List.append_assoc, number_append, Nat.mul_comm, Nat.mul_add_div (Nat.pow_pos (by decide)),
    Nat.div_eq_of_lt (number_lt lo), Nat.add_zero, number_append, Nat.mul_add_mod_self_right, Nat.mod_eq_of_lt (number_lt mid)]

/-! ## Networks -/

/-- The `2 ^ free` addresses from `net` on. -/
structure Block where
  net : Nat
  free : Nat
  deriving DecidableEq, Repr

def Block.Contains (b : Block) (x : Nat) : Prop := b.net ≤ x ∧ x < b.net + 2 ^ b.free

instance (b : Block) (x : Nat) : Decidable (b.Contains x) := inferInstanceAs (Decidable (_ ∧ _))

/-- The network written with `groups` of `w` bits, of which `n` make an address,
and followed by `/len`: groups left out are 0. -/
def block (w n : Nat) (groups : List Nat) (len : Nat) : Block :=
  ⟨Nat.ofDigits (2 ^ w) groups.reverse * (2 ^ w) ^ (n - groups.length), w * n - len⟩

/-- Where whole bytes are free, they are not looked at. -/
theorem contains_append (net free : Nat) (hi lo : List Byte) :
    Block.Contains ⟨net * 256 ^ lo.length, free + 8 * lo.length⟩ (number (hi ++ lo)) ↔
      Block.Contains ⟨net, free⟩ (number hi) := by
  have hlo := number_lt lo
  have hpow : 2 ^ (free + 8 * lo.length) = 2 ^ free * 256 ^ lo.length := by
    rw [Nat.pow_add, Nat.pow_mul]
  unfold Block.Contains
  rw [number_append, hpow, ← Nat.add_mul]
  dsimp only
  generalize 256 ^ lo.length = p at hlo ⊢
  refine and_congr ⟨fun h => ?_, fun h => ?_⟩ ⟨fun h => ?_, fun h => ?_⟩
  · by_contra hlt
    have := Nat.mul_le_mul_right p (by omega : number hi + 1 ≤ net)
    rw [Nat.add_mul] at this
    omega
  · exact (Nat.mul_le_mul_right p h).trans (Nat.le_add_right ..)
  · exact Nat.lt_of_mul_lt_mul_right ((Nat.le_add_right ..).trans_lt h)
  · have := Nat.mul_le_mul_right p (by omega : number hi + 1 ≤ net + 2 ^ free)
    rw [Nat.add_mul] at this
    omega

/-- A network is one of its leading bytes. -/
theorem contains_take {b : Block} {bs : List Byte} {n : Nat} (hn : bs.length = n) (net free k : Nat)
    (hb : b = ⟨net * 256 ^ (n - k), free + 8 * (n - k)⟩) :
    b.Contains (number bs) ↔ Block.Contains ⟨net, free⟩ (number (bs.take k)) := by
  have h := contains_append net free (bs.take k) (bs.drop k)
  rw [List.length_drop, hn, List.take_append_drop] at h
  rw [hb, h]

/-- Where only whole bytes are free, the others are fixed. -/
theorem contains_leading {b : Block} {bs : List Byte} {n : Nat} (hn : bs.length = n) (as : List Byte) (hlen : as.length ≤ n)
    (hb : b = ⟨number as * 256 ^ (n - as.length), 8 * (n - as.length)⟩) :
    b.Contains (number bs) ↔ bs.take as.length = as := by
  have hsame : (bs.take as.length).length = as.length := by
    rw [List.length_take]
    omega
  rw [contains_take hn (number as) 0 as.length (by rw [hb, Nat.zero_add]), ← number_inj hsame]
  simp only [Block.Contains, Nat.pow_zero]
  omega

/-! ## Masks -/

theorem and_mask {x k w : Nat} (hx : x < 2 ^ w) (hk : k ≤ w) : x &&& (2 ^ w - 2 ^ k) = x / 2 ^ k * 2 ^ k := by
  have hmask : 2 ^ w - 2 ^ k = (2 ^ (w - k) - 1) * 2 ^ k := by
    rw [Nat.sub_mul, ← Nat.pow_add, Nat.sub_add_cancel hk, Nat.one_mul]
  rw [hmask]
  refine Nat.eq_of_testBit_eq fun i => ?_
  rw [Nat.testBit_and, Nat.testBit_mul_two_pow, Nat.testBit_mul_two_pow]
  by_cases hi : k ≤ i
  · rw [Nat.testBit_two_pow_sub_one, Nat.testBit_div_two_pow, Nat.sub_add_cancel hi]
    by_cases hw : i < w
    · simp [hi, show i - k < w - k by omega]
    · rw [Nat.testBit_lt_two_pow (hx.trans_le (Nat.pow_le_pow_right (by decide) (by omega)))]
      simp
  · simp [hi]

/-- An address is in a network when the mask leaves the network of it. -/
theorem and_mask_eq_iff {x net k w : Nat} (hx : x < 2 ^ w) (hk : k ≤ w) (hnet : 2 ^ k ∣ net) :
    x &&& (2 ^ w - 2 ^ k) = net ↔ Block.Contains ⟨net, k⟩ x := by
  obtain ⟨q, rfl⟩ := hnet
  have hpos : 0 < 2 ^ k := Nat.two_pow_pos k
  have hdiv := Nat.div_add_mod x (2 ^ k)
  have hmod := Nat.mod_lt x hpos
  rw [and_mask hx hk, Nat.mul_comm (x / 2 ^ k)]
  simp only [Block.Contains]
  refine ⟨fun h => by omega, fun h => ?_⟩
  rw [Nat.div_eq_of_lt_le (Nat.mul_comm .. ▸ h.1) (by rw [Nat.add_mul, Nat.mul_comm q]; omega)]

end Cidr
