/-
The unsafe addresses as numbers: an IPv4 address of 32 bits and an IPv6 address
of 128, most significant byte first, each in one of the networks the code names
or holding an unsafe IPv4 address at its place. The byte tests of the code, in
their order, come to exactly that.
-/
import Mathlib.Data.Fin.VecNotation
import SecureProxy.Address
import SecureProxy.Lib.Cidr

namespace SecureProxy

open Bytes Cidr

/-- `address_is_unsafe` of a pointer, which may be NULL. -/
def addressPtrIsUnsafe : Option Sockaddr → Bool
  | none => true
  | some addr => addressIsUnsafe addr

/-! ## The networks -/

/-- The fourteen networks of the table, as its comments name them. -/
def unsafeV4Blocks : List Block :=
  [block 8 4 [0] 8, block 8 4 [10] 8, block 8 4 [100, 64] 10, block 8 4 [127] 8, block 8 4 [169, 254] 16,
   block 8 4 [172, 16] 12, block 8 4 [192, 0, 0] 24, block 8 4 [192, 0, 2] 24, block 8 4 [192, 168] 16,
   block 8 4 [198, 18] 15, block 8 4 [198, 51, 100] 24, block 8 4 [203, 0, 113] 24, block 8 4 [224] 4,
   block 8 4 [240] 4]

def UnsafeV4 (x : Nat) : Prop := ∃ b ∈ unsafeV4Blocks, b.Contains x

/-- ::/96, 64:ff9b:1::/48, 2001::/32, 2001:db8::/32, 100::/64, fc00::/7,
fe80::/10, fec0::/10 and ff00::/8. -/
def unsafeV6Blocks : List Block :=
  [block 16 8 [] 96, block 16 8 [0x64, 0xff9b, 1] 48, block 16 8 [0x2001, 0] 32, block 16 8 [0x2001, 0xdb8] 32,
   block 16 8 [0x100] 64, block 16 8 [0xfc00] 7, block 16 8 [0xfe80] 10, block 16 8 [0xfec0] 10, block 16 8 [0xff00] 8]

/-- ::ffff:0:0/96, 64:ff9b::/96 and 2002::/16, with the number of bits that
follow the IPv4 address in each. -/
def embeddingBlocks : List (Block × Nat) :=
  [(block 16 8 [0, 0, 0, 0, 0, 0xffff] 96, 0), (block 16 8 [0x64, 0xff9b] 96, 0), (block 16 8 [0x2002] 16, 80)]

def UnsafeV6 (x : Nat) : Prop :=
  (∃ b ∈ unsafeV6Blocks, b.Contains x) ∨ ∃ e ∈ embeddingBlocks, e.1.Contains x ∧ UnsafeV4 (x / 2 ^ e.2 % 2 ^ 32)

/-! ## IPv4 -/

theorem v4FromBytes_toNat (b0 b1 b2 b3 : Byte) : (v4FromBytes b0 b1 b2 b3).toNat = number [b0, b1, b2, b3] := by
  have h0 := b0.toNat_lt
  have h1 := b1.toNat_lt
  have h2 := b2.toNat_lt
  have h3 := b3.toNat_lt
  -- the bytes do not overlap: each or is a sum
  have hor : ∀ (b : Byte) (k n : Nat), k ≤ 24 → n < 2 ^ k → b.toNat <<< k % 2 ^ 32 ||| n = b.toNat * 2 ^ k + n := by
    intro b k n hk hn
    have hb := b.toNat_lt
    have hpow : 2 ^ k ≤ 2 ^ 24 := Nat.pow_le_pow_right (by decide) hk
    have hsmall : b.toNat * 2 ^ k < 2 ^ 32 :=
      calc b.toNat * 2 ^ k ≤ b.toNat * 2 ^ 24 := Nat.mul_le_mul_left _ hpow
        _ < 2 ^ 32 := by omega
    rw [Nat.shiftLeft_eq, Nat.mod_eq_of_lt hsmall, ← Nat.shiftLeft_eq, ← Nat.shiftLeft_add_eq_or_of_lt hn]
  have hnumber : number [b0, b1, b2, b3] = b0.toNat * 2 ^ 24 + (b1.toNat * 2 ^ 16 + (b2.toNat * 2 ^ 8 + b3.toNat)) := by
    simp only [number, List.reverse_cons, List.reverse_nil, List.nil_append, List.cons_append, List.map_cons, List.map_nil,
      Nat.ofDigits_cons, Nat.ofDigits_nil]
    omega
  rw [hnumber]
  simp only [v4FromBytes, UInt32.toNat_or, UInt32.toNat_shiftLeft, UInt8.toNat_toUInt32, Nat.or_assoc,
    UInt32.reduceToNat, Nat.reduceMod]
  rw [hor b2 8 _ (by decide) h3, hor b1 16 _ (by decide) (by omega), hor b0 24 _ (by decide) (by omega)]

/-- The network of an entry of the table. -/
def tableBlock (entry : UInt32 × UInt32) : Block := ⟨entry.1.toNat, Nat.log2 (2 ^ 32 - entry.2.toNat)⟩

theorem blockedV4_blocks : blockedV4.map tableBlock = unsafeV4Blocks := by decide +kernel

theorem blockedV4_masks : ∀ e ∈ blockedV4, e.2.toNat = 2 ^ 32 - 2 ^ (tableBlock e).free ∧ (tableBlock e).free ≤ 32 ∧
    2 ^ (tableBlock e).free ∣ e.1.toNat := by
  -- a test of the list: to decide the statement itself could mean every pair of words
  have htable : (blockedV4.all fun e => decide (e.2.toNat = 2 ^ 32 - 2 ^ (tableBlock e).free) &&
      decide ((tableBlock e).free ≤ 32) && e.1.toNat % 2 ^ (tableBlock e).free == 0) = true := by
    decide +kernel
  intro e he
  have hentry := List.all_eq_true.1 htable e he
  simp only [Bool.and_eq_true, decide_eq_true_eq, beq_iff_eq] at hentry
  exact ⟨hentry.1.1, hentry.1.2, Nat.dvd_of_mod_eq_zero hentry.2⟩

theorem ipv4IsUnsafe_iff (ip : UInt32) : ipv4IsUnsafe ip = true ↔ UnsafeV4 ip.toNat := by
  have hentry : ∀ e ∈ blockedV4, ip &&& e.2 = e.1 ↔ (tableBlock e).Contains ip.toNat := by
    intro e he
    obtain ⟨hmask, hfree, haligned⟩ := blockedV4_masks e he
    rw [← UInt32.toNat_inj, UInt32.toNat_and, hmask]
    exact and_mask_eq_iff ip.toNat_lt hfree haligned
  unfold UnsafeV4
  rw [← blockedV4_blocks, ipv4IsUnsafe, List.any_eq_true]
  constructor
  · rintro ⟨e, he, htest⟩
    exact ⟨_, List.mem_map_of_mem he, (hentry e he).1 (by simpa using htest)⟩
  · rintro ⟨b, hb, hin⟩
    obtain ⟨e, he, rfl⟩ := List.mem_map.1 hb
    exact ⟨e, he, by simpa using (hentry e he).2 hin⟩

/-! ## IPv6 -/

theorem ofFn_sixteen (a : Fin 16 → Byte) : List.ofFn a =
    [a 0, a 1, a 2, a 3, a 4, a 5, a 6, a 7, a 8, a 9, a 10, a 11, a 12, a 13, a 14, a 15] := rfl

theorem contains_fc00 (a : Fin 16 → Byte) :
    (block 16 8 [0xfc00] 7).Contains (number (List.ofFn a)) ↔ a 0 &&& 0xFE = 0xFC := by
  have hbyte : ∀ b : Byte, Block.Contains ⟨0xFC, 1⟩ (number [b]) ↔ b &&& 0xFE = 0xFC := forall_byte (by decide +kernel)
  rw [contains_take List.length_ofFn 0xFC 1 1 (by decide +kernel)]
  exact hbyte (a 0)

/-- fe80::/10 and fec0::/10: the first byte, and the first two bits of the
second. -/
theorem contains_fe (a : Fin 16 → Byte) {c : Byte} (hc : ∀ b : Byte, c.toNat ≤ b.toNat ∧ b.toNat < c.toNat + 64 ↔ b &&& 0xC0 = c)
    {b : Block} (hb : b = ⟨(0xFE00 + c.toNat) * 256 ^ 14, 6 + 8 * 14⟩) (hlt : c.toNat + 64 ≤ 256) :
    b.Contains (number (List.ofFn a)) ↔ a 0 = 0xFE ∧ a 1 &&& 0xC0 = c := by
  have hnumber : number ((List.ofFn a).take 2) = (a 0).toNat * 256 + (a 1).toNat := by
    show number [a 0, a 1] = _
    simp [number, Nat.ofDigits_cons]
    omega
  have hfirst : a 0 = 0xFE ↔ (a 0).toNat = 0xFE := UInt8.toNat_inj.symm
  have h1 := (a 1).toNat_lt
  rw [contains_take List.length_ofFn _ 6 2 hb, hnumber, ← hc, hfirst]
  simp only [Block.Contains]
  omega

section

variable (a : Fin 16 → Byte)

theorem embedded_low : number (List.ofFn a) / 2 ^ 0 % 2 ^ 32 = number [a 12, a 13, a 14, a 15] := by
  have h := @number_middle ((List.ofFn a).take 12) [a 12, a 13, a 14, a 15] [] (2 ^ 32) (2 ^ 0) (by norm_num) (by norm_num)
  rw [← h]
  rfl

theorem embedded_middle : number (List.ofFn a) / 2 ^ 80 % 2 ^ 32 = number [a 2, a 3, a 4, a 5] := by
  have h := @number_middle ((List.ofFn a).take 2) [a 2, a 3, a 4, a 5] ((List.ofFn a).drop 6) (2 ^ 32) (2 ^ 80) (by norm_num)
    (by norm_num)
  rw [← h]
  rfl

/-- The tests of the code, in their order, on what the bytes are. -/
theorem ipv6IsUnsafe_iff : ipv6IsUnsafe a = true ↔ UnsafeV6 (number (List.ofFn a)) := by
  have hlen : (List.ofFn a).length = 16 := List.length_ofFn
  have hzero := contains_leading (b := block 16 8 [] 96) hlen (List.replicate 12 0) (by decide) (by decide +kernel)
  have hlocal := contains_leading (b := block 16 8 [0x64, 0xff9b, 1] 48) hlen [0, 0x64, 0xFF, 0x9B, 0, 1] (by decide)
    (by decide +kernel)
  have hteredo := contains_leading (b := block 16 8 [0x2001, 0] 32) hlen [0x20, 1, 0, 0] (by decide) (by decide +kernel)
  have hdoc := contains_leading (b := block 16 8 [0x2001, 0xdb8] 32) hlen [0x20, 1, 0x0D, 0xB8] (by decide) (by decide +kernel)
  have hdiscard := contains_leading (b := block 16 8 [0x100] 64) hlen [1, 0, 0, 0, 0, 0, 0, 0] (by decide) (by decide +kernel)
  have hfe80 := contains_fe a (c := 0x80) (forall_byte (by decide +kernel)) (b := block 16 8 [0xfe80] 10) (by decide +kernel) (by decide)
  have hfec0 := contains_fe a (c := 0xC0) (forall_byte (by decide +kernel)) (b := block 16 8 [0xfec0] 10) (by decide +kernel) (by decide)
  have hmulti := contains_leading (b := block 16 8 [0xff00] 8) hlen [0xFF] (by decide) (by decide +kernel)
  have hmapped := contains_leading (b := block 16 8 [0, 0, 0, 0, 0, 0xffff] 96) hlen
    [0, 0, 0, 0, 0, 0, 0, 0, 0, 0, 0xFF, 0xFF] (by decide) (by decide +kernel)
  have hnat64 := contains_leading (b := block 16 8 [0x64, 0xff9b] 96) hlen nat64 (by decide) (by decide +kernel)
  have hsix := contains_leading (b := block 16 8 [0x2002] 16) hlen [0x20, 2] (by decide) (by decide +kernel)
  simp only [UnsafeV6, unsafeV6Blocks, embeddingBlocks, List.mem_cons, exists_eq_or_imp, List.not_mem_nil,
    or_false, exists_eq_left, hzero, hlocal, hteredo, hdoc, hdiscard, contains_fc00, hfe80, hfec0, hmulti, hmapped, hnat64, hsix,
    embedded_low, embedded_middle, ← v4FromBytes_toNat, ← ipv4IsUnsafe_iff]
  simp only [ofFn_sixteen, ipv6IsUnsafe, nat64, List.replicate, List.take, List.length]
  simp only [List.all_cons, List.all_nil, Bool.and_true, Bool.and_eq_true, beq_iff_eq, List.cons.injEq, and_true, if_true_left,
    Bool.or_eq_true, Bool.ite_eq_true_distrib]
  clear hzero hlocal hteredo hdoc hdiscard hfe80 hfec0 hmulti hmapped hnat64 hsix
  -- an address in one of the three embedding networks is in no other
  split
  · rename_i h
    simp [h]
  · rename_i hmapped
    split
    · rename_i h
      simp [h]
    · rename_i hnat64
      split
      · rename_i h
        have hfc : (32 : Byte) &&& 254 ≠ 252 := by decide
        simp [h, hfc]
      · rename_i hsix
        simp only [and_assoc] at hmapped
        simp only [hmapped, hnat64, hsix, false_and, or_false, ← or_iff_not_imp_left, Bool.false_eq_true, and_or_left, and_assoc,
          or_assoc]

end

/-! ## The forms of an IPv4 address -/

section

variable (v : Fin 4 → Byte)

/-- ::ffff:a.b.c.d -/
def mappedForm : Fin 16 → Byte := Fin.append ![0, 0, 0, 0, 0, 0, 0, 0, 0, 0, 0xFF, 0xFF] v

/-- 64:ff9b::a.b.c.d -/
def nat64Form : Fin 16 → Byte := Fin.append ![0x00, 0x64, 0xFF, 0x9B, 0, 0, 0, 0, 0, 0, 0, 0] v

/-- 2002:ab:cd::/48, whatever follows. -/
def sixToFourForm (s : Fin 10 → Byte) : Fin 16 → Byte := Fin.append (Fin.append ![0x20, 0x02] v) s

/-- They are judged as the address itself. -/
theorem ipv6IsUnsafe_mapped : ipv6IsUnsafe (mappedForm v) = addressIsUnsafe (.inet v) := rfl

theorem ipv6IsUnsafe_nat64 : ipv6IsUnsafe (nat64Form v) = addressIsUnsafe (.inet v) := rfl

theorem ipv6IsUnsafe_sixToFour (s : Fin 10 → Byte) : ipv6IsUnsafe (sixToFourForm v s) = addressIsUnsafe (.inet v) := rfl

end

/-- **The unsafe addresses are those of the networks**: an IPv4 address as a
number of 32 bits, an IPv6 address as one of 128, an IPv4 address within an
IPv6 address as itself; and nothing else is ever safe. -/
theorem addressPtrIsUnsafe_ranges :
    (∀ v, addressPtrIsUnsafe (some (.inet v)) = true ↔ UnsafeV4 (number (List.ofFn v))) ∧
    (∀ a, addressPtrIsUnsafe (some (.inet6 a)) = true ↔ UnsafeV6 (number (List.ofFn a))) ∧
    (∀ v, addressPtrIsUnsafe (some (.inet6 (mappedForm v))) = addressPtrIsUnsafe (some (.inet v)) ∧
      addressPtrIsUnsafe (some (.inet6 (nat64Form v))) = addressPtrIsUnsafe (some (.inet v)) ∧
      ∀ s, addressPtrIsUnsafe (some (.inet6 (sixToFourForm v s))) = addressPtrIsUnsafe (some (.inet v))) ∧
    addressPtrIsUnsafe none = true ∧ addressPtrIsUnsafe (some .other) = true := by
  refine ⟨fun v => ?_, fun a => ipv6IsUnsafe_iff a, fun v => ?_, rfl, rfl⟩
  · show ipv4IsUnsafe (v4FromBytes (v 0) (v 1) (v 2) (v 3)) = true ↔ UnsafeV4 (number [v 0, v 1, v 2, v 3])
    rw [ipv4IsUnsafe_iff, v4FromBytes_toNat]
  · exact ⟨ipv6IsUnsafe_mapped v, ipv6IsUnsafe_nat64 v, ipv6IsUnsafe_sixToFour v⟩

end SecureProxy
