import Tcng.Lib.BitOrder

/-! One field of bits in place of a mask: it has the bits the mask has, and
those in the holes of the mask. -/

namespace Holes

/-- Bits that the mask lacks between two that it has. -/
def holes (w m : Nat) : Nat :=
  Nat.ofBits fun j : Fin w => !m.testBit j &&
    (decide (∃ i < j.val, m.testBit i = true) &&
      decide (∃ i < w, j.val < i ∧ m.testBit i = true))

variable {w m : Nat}

theorem testBit_holes (j : Nat) : (holes w m).testBit j = true ↔
    j < w ∧ m.testBit j = false ∧ (∃ i < j, m.testBit i = true) ∧
      ∃ i < w, j < i ∧ m.testBit i = true := by
  by_cases hj : j < w
  · rw [holes, Nat.testBit_ofBits_lt _ _ hj]
    simp only [hj, Bool.and_eq_true, Bool.not_eq_true', decide_eq_true_eq,
      true_and]
  · rw [holes, Nat.testBit_ofBits_ge _ _ (Nat.not_lt.mp hj)]
    simp [hj]

theorem holes_zero (w : Nat) : holes w 0 = 0 := by
  apply Nat.eq_of_testBit_eq
  intro j
  rw [Nat.zero_testBit, ← Bool.not_eq_true, testBit_holes]
  rintro ⟨-, -, ⟨i, -, hi⟩, -⟩
  rw [Nat.zero_testBit] at hi
  cases hi

/-- The lowest bit of a mask. -/
structure Lowest (m t : Nat) : Prop where
  bit : m.testBit t = true
  below : ∀ i < t, m.testBit i = false

/-- The highest bit of a mask, as far as `w` bits go. -/
structure Highest (w m k : Nat) : Prop where
  lt : k < w
  bit : m.testBit k = true
  above : ∀ i < w, k < i → m.testBit i = false

theorem or_eq_add {a b : Nat} (h : a &&& b = 0) : a ||| b = a + b := by
  have hw : a + b < 2 ^ (a + b) := Nat.lt_two_pow_self
  have ha : a % 2 ^ (a + b) = a := Nat.mod_eq_of_lt (by omega)
  have hb : b % 2 ^ (a + b) = b := Nat.mod_eq_of_lt (by omega)
  have hand : BitVec.ofNat (a + b) a &&& .ofNat (a + b) b = 0 := by
    apply BitVec.eq_of_toNat_eq
    rw [BitVec.toNat_and, BitVec.toNat_ofNat, BitVec.toNat_ofNat, ha, hb, h]
    exact (Nat.zero_mod _).symm
  have hor := congrArg BitVec.toNat (BitVec.add_eq_or_of_and_eq_zero _ _ hand)
  rw [BitVec.toNat_or, BitVec.toNat_add, BitVec.toNat_ofNat,
    BitVec.toNat_ofNat, ha, hb, Nat.mod_eq_of_lt hw] at hor
  exact hor.symm

private theorem testBit_field (v t k i : Nat) (ht : t ≤ k) :
    (v / 2 ^ t % 2 ^ (k + 1 - t) * 2 ^ t).testBit i =
      (decide (t ≤ i ∧ i ≤ k) && v.testBit i) := by
  rw [Nat.testBit_mul_two_pow, Nat.testBit_mod_two_pow, Nat.testBit_div_two_pow]
  by_cases hi : t ≤ i
  · rw [Nat.sub_add_cancel hi, decide_eq_true hi, Bool.true_and]
    congr 1
    rw [decide_eq_decide]
    omega
  · simp [hi]

theorem field_eq {v t k : Nat} (ht : Lowest m t) (hk : Highest w m k)
    (hv : v < 2 ^ w) :
    v / 2 ^ t % 2 ^ (k + 1 - t) * 2 ^ t = (v &&& m) + (v &&& holes w m) := by
  have hle : t ≤ k := by
    by_contra hlt
    have hbit := ht.below k (Nat.not_le.mp hlt)
    rw [hk.bit] at hbit
    cases hbit
  have hdisjoint : (v &&& m) &&& (v &&& holes w m) = 0 := by
    rw [BitOrder.and_eq_zero_iff]
    rintro i ⟨hm, hh⟩
    rw [Nat.testBit_and, Bool.and_eq_true] at hm hh
    have hhole := (testBit_holes i).mp hh.2
    rw [hm.2] at hhole
    cases hhole.2.1
  rw [← or_eq_add hdisjoint, ← Nat.and_or_distrib_left]
  apply Nat.eq_of_testBit_eq
  intro i
  rw [testBit_field v t k i hle, Nat.testBit_and, Bool.and_comm]
  cases hbit : v.testBit i with
  | false => rfl
  | true =>
      have hi : i < w := by
        by_contra hi
        rw [Nat.testBit_lt_two_pow (Nat.lt_of_lt_of_le hv
          (Nat.pow_le_pow_right (by decide) (Nat.not_lt.mp hi)))] at hbit
        cases hbit
      rw [Bool.true_and, Bool.true_and, Bool.eq_iff_iff, decide_eq_true_eq,
        Nat.testBit_or, Bool.or_eq_true, testBit_holes]
      constructor
      · rintro ⟨hti, hik⟩
        cases hm : m.testBit i with
        | true => exact .inl rfl
        | false =>
            refine .inr ⟨hi, rfl, ⟨t, ?_, ht.bit⟩, k, hk.lt, ?_, hk.bit⟩
            · refine Nat.lt_of_le_of_ne hti fun heq => ?_
              rw [← heq, ht.bit] at hm
              cases hm
            · refine Nat.lt_of_le_of_ne hik fun heq => ?_
              rw [heq, hk.bit] at hm
              cases hm
      · rintro (hm | ⟨-, -, ⟨low, hlow, hlowbit⟩, high, hhigh, hlt, hhighbit⟩)
        · refine ⟨Nat.not_lt.mp fun hlt => ?_, Nat.not_lt.mp fun hlt => ?_⟩
          · rw [ht.below i hlt] at hm
            cases hm
          · rw [hk.above i hi hlt] at hm
            cases hm
        · refine ⟨Nat.not_lt.mp fun hit => ?_, Nat.not_lt.mp fun hki => ?_⟩
          · rw [ht.below low (Nat.lt_trans hlow hit)] at hlowbit
            cases hlowbit
          · rw [hk.above high hhigh (Nat.lt_trans hki hlt)] at hhighbit
            cases hhighbit

end Holes
