import Mathlib.Data.Nat.Bitwise

/-! Parts of a word that a mask selects, as numbers. -/

namespace Tcng

variable {w : Nat}

/-- Bits from outside of a mask do not pass it. -/
theorem or_and_of_disjoint (a b m m' : BitVec w) (h : m' &&& m = 0) :
    ((a &&& m) ||| (b &&& m')) &&& m = a &&& m := by
  ext i hi
  have hbit : (m' &&& m)[i] = false := by
    rw [h]
    simp
  rw [BitVec.getElem_and] at hbit
  simp only [BitVec.getElem_and, BitVec.getElem_or]
  revert hbit
  cases a[i] <;> cases b[i] <;> cases m[i] <;> cases m'[i] <;> simp

/-- The bits below `k`. -/
theorem toNat_and_low (n m : BitVec w) {k : Nat} (hm : m.toNat = 2 ^ k - 1) :
    (n &&& m).toNat = n.toNat % 2 ^ k := by
  rw [BitVec.toNat_and, hm]
  exact Nat.and_two_pow_sub_one_eq_mod n.toNat k

/-- The bits from `k` on. -/
theorem toNat_and_high (n m : BitVec w) {k : Nat}
    (hm : (~~~m).toNat = 2 ^ k - 1) :
    (n &&& m).toNat = n.toNat / 2 ^ k * 2 ^ k := by
  apply Nat.eq_of_testBit_eq
  intro i
  rw [Nat.testBit_mul_two_pow, Nat.testBit_div_two_pow, BitVec.testBit_toNat,
    BitVec.getLsbD_and]
  have hbit : (~~~m).toNat.testBit i = decide (i < k) := by
    rw [hm, Nat.testBit_two_pow_sub_one]
  rw [BitVec.testBit_toNat, BitVec.getLsbD_not] at hbit
  by_cases hi : i < w
  · by_cases hk : i < k
    · simp [hi, hk] at hbit
      simp [BitVec.getLsbD_eq_getElem hi, hbit, Nat.not_le.mpr hk]
    · simp [hi, hk] at hbit
      have hsum : i - k + k = i := by omega
      simp [BitVec.getLsbD_eq_getElem hi, hbit, Nat.not_lt.mp hk, hsum,
        BitVec.testBit_toNat]
  · have hout : n.getLsbD i = false := BitVec.getLsbD_of_ge n i (by omega)
    by_cases hk : i < k
    · simp [hout, Nat.not_le.mpr hk]
    · have hsum : i - k + k = i := by omega
      simp [hout, hsum, BitVec.testBit_toNat]

end Tcng
