import Mathlib.Data.Nat.Bitwise

namespace YiOS.Library

/-! Masks of machine words, read as arithmetic on the naturals. -/

theorem toNat_lt_of_ne {a b : BitVec w} (hle : a.toNat ≤ b.toNat) (hne : a ≠ b) :
    a.toNat < b.toNat :=
  Nat.lt_of_le_of_ne hle fun heq => hne (BitVec.eq_of_toNat_eq heq)

theorem toNat_and_lowMask (x : BitVec w) {k : Nat} (hk : k ≤ w) :
    (x &&& BitVec.ofNat w (2 ^ k - 1)).toNat = x.toNat % 2 ^ k := by
  have hlt : 2 ^ k - 1 < 2 ^ w := by
    have := Nat.pow_le_pow_right (n := 2) (by omega) hk
    have := Nat.two_pow_pos k
    omega
  rw [BitVec.toNat_and, BitVec.toNat_ofNat, Nat.mod_eq_of_lt hlt,
    Nat.and_two_pow_sub_one_eq_mod]

theorem toNat_and_highMask (x : BitVec w) (k : Nat) :
    (x &&& BitVec.allOnes w <<< k).toNat = x.toNat / 2 ^ k * 2 ^ k := by
  rw [← BitVec.shiftLeft_ushiftRight, BitVec.toNat_shiftLeft,
    BitVec.toNat_ushiftRight, Nat.shiftRight_eq_div_pow, Nat.shiftLeft_eq]
  apply Nat.mod_eq_of_lt
  exact lt_of_le_of_lt (Nat.div_mul_le_self x.toNat (2 ^ k)) x.isLt

theorem toNat_ushiftRight_div (x : BitVec w) (k : Nat) :
    (x >>> k).toNat = x.toNat / 2 ^ k := by
  rw [BitVec.toNat_ushiftRight, Nat.shiftRight_eq_div_pow]

/-- Shifting a word down and up again clears its low bits. -/
theorem shiftRight_shiftLeft_of_mod (x : BitVec w) {k : Nat}
    (hmod : x.toNat % 2 ^ k = 0) : x >>> k <<< k = x := by
  apply BitVec.eq_of_toNat_eq
  rw [BitVec.shiftLeft_ushiftRight, toNat_and_highMask]
  exact Nat.div_mul_cancel (Nat.dvd_of_mod_eq_zero hmod)

theorem or_and_eq_zero (x y z : BitVec w) :
    (x ||| y) &&& z = 0#w ↔ x &&& z = 0#w ∧ y &&& z = 0#w := by
  rw [BitVec.and_or_distrib_right]
  exact BitVec.or_eq_zero_iff

theorem or_and_of_and_eq (x : BitVec w) {y z : BitVec w} (hy : y &&& z = 0#w) :
    (x ||| y) &&& z = x &&& z := by
  rw [BitVec.and_or_distrib_right, hy, BitVec.or_zero]

theorem or_and_right_of_and_eq {x z : BitVec w} (y : BitVec w) (hx : x &&& z = 0#w) :
    (x ||| y) &&& z = y &&& z := by
  rw [BitVec.and_or_distrib_right, hx, BitVec.zero_or]

/-- Bits below a shift are clear. -/
theorem shiftLeft_and_of_lt (x : BitVec w) {z : BitVec w} {k : Nat}
    (hz : z.toNat < 2 ^ k) : x <<< k &&& z = 0#w := by
  apply BitVec.eq_of_getLsbD_eq
  intro i hi
  by_cases hlow : i < k
  · simp [hlow]
  · have hbit : z.getLsbD i = false :=
      Nat.testBit_lt_two_pow
        (lt_of_lt_of_le hz (Nat.pow_le_pow_right (by omega) (not_lt.mp hlow)))
    simp [hbit]

end YiOS.Library
