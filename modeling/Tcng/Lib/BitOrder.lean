import Mathlib.Data.Nat.Bitwise

/-! Order of numbers by their bits. -/

namespace BitOrder

theorem and_eq_zero_iff {m n : Nat} :
    m &&& n = 0 ↔ ∀ i, ¬(m.testBit i = true ∧ n.testBit i = true) := by
  constructor
  · intro h i hi
    have hbit := congrArg (Nat.testBit · i) h
    simp only [Nat.testBit_and, Nat.zero_testBit, Bool.and_eq_false_iff] at hbit
    rcases hbit with hm | hn
    · exact absurd (hm.symm.trans hi.1) (by decide)
    · exact absurd (hn.symm.trans hi.2) (by decide)
  · intro h
    apply Nat.eq_of_testBit_eq
    intro i
    rw [Nat.testBit_and, Nat.zero_testBit, ← Bool.not_eq_true,
      Bool.and_eq_true]
    exact h i

theorem and_eq_left_iff {m n : Nat} :
    m &&& n = m ↔ ∀ i, m.testBit i = true → n.testBit i = true := by
  constructor
  · intro h i hi
    rw [← h, Nat.testBit_and, Bool.and_eq_true] at hi
    exact hi.2
  · intro h
    apply Nat.eq_of_testBit_eq
    intro i
    rw [Nat.testBit_and]
    cases hi : m.testBit i with
    | true => rw [h i hi, Bool.true_and]
    | false => rfl

/-- Small numbers have no bits in common with a mask for the upper ones. -/
theorem and_eq_zero_iff_lt {v m w k : Nat} (hv : v < 2 ^ w)
    (hm : ∀ i < w, m.testBit i = decide (k ≤ i)) :
    v &&& m = 0 ↔ v < 2 ^ k := by
  rw [and_eq_zero_iff]
  constructor
  · intro h
    apply Nat.lt_pow_two_of_testBit
    intro i hi
    by_cases hw : i < w
    · rw [← Bool.not_eq_true]
      intro hbit
      exact h i ⟨hbit, by rw [hm i hw, decide_eq_true hi]⟩
    · exact Nat.testBit_lt_two_pow (Nat.lt_of_lt_of_le hv
        (Nat.pow_le_pow_right (by decide) (Nat.not_lt.mp hw)))
  · intro h i hi
    have hki : ¬k ≤ i := fun hki => by
      rw [Nat.testBit_lt_two_pow (Nat.lt_of_lt_of_le h
        (Nat.pow_le_pow_right (by decide) hki))] at hi
      exact absurd hi.1 (by decide)
    by_cases hw : i < w
    · rw [hm i hw, decide_eq_false hki] at hi
      exact absurd hi.2 (by decide)
    · rw [Nat.testBit_lt_two_pow (Nat.lt_of_lt_of_le hv
        (Nat.pow_le_pow_right (by decide) (Nat.not_lt.mp hw)))] at hi
      exact absurd hi.1 (by decide)

theorem xor_eq_iff {x k c : Nat} : x ^^^ k = c ↔ x = c ^^^ k := by
  constructor
  · rintro rfl
    rw [Nat.xor_assoc, Nat.xor_self, Nat.xor_zero]
  · rintro rfl
    rw [Nat.xor_assoc, Nat.xor_self, Nat.xor_zero]

/-- Bits that are set on one side cannot be missing on the other one. -/
theorem or_ne {x k c : Nat} (h : k &&& c ≠ k) : x ||| k ≠ c := by
  rintro rfl
  apply h
  apply Nat.eq_of_testBit_eq
  intro i
  rw [Nat.testBit_and, Nat.testBit_or]
  cases k.testBit i <;> simp

/-- The bits of `k` are known: the others are compared. -/
theorem or_eq_iff {w x k c : Nat} (hx : x < 2 ^ w) (hk : k < 2 ^ w)
    (hc : c < 2 ^ w) (hkc : k &&& c = k) :
    x ||| k = c ↔ x &&& (2 ^ w - 1 - k) = c &&& (2 ^ w - 1 - k) := by
  have hnot (i : Nat) : (2 ^ w - 1 - k).testBit i =
      (decide (i < w) && !k.testBit i) := by
    rw [show 2 ^ w - 1 - k = 2 ^ w - (k + 1) by omega,
      Nat.testBit_two_pow_sub_succ hk]
  have hsubset (i : Nat) (hi : k.testBit i = true) : c.testBit i = true := by
    rw [← hkc, Nat.testBit_and] at hi
    exact (Bool.and_eq_true_iff.mp hi).2
  constructor
  · rintro rfl
    apply Nat.eq_of_testBit_eq
    intro i
    rw [Nat.testBit_and, Nat.testBit_and, Nat.testBit_or, hnot]
    cases k.testBit i <;> simp
  · intro h
    apply Nat.eq_of_testBit_eq
    intro i
    have hbit := congrArg (Nat.testBit · i) h
    simp only [Nat.testBit_and, hnot] at hbit
    rw [Nat.testBit_or]
    by_cases hi : i < w
    · cases hki : k.testBit i with
      | true => rw [hsubset i hki, Bool.or_true]
      | false => simpa [hki, hi] using hbit
    · have hlarge {n : Nat} (hn : n < 2 ^ w) : n.testBit i = false :=
        Nat.testBit_lt_two_pow (Nat.lt_of_lt_of_le hn
          (Nat.pow_le_pow_right (by decide) (Nat.not_lt.mp hi)))
      rw [hlarge hx, hlarge hk, hlarge hc, Bool.or_false]

/-! ## Bit by bit -/

/-- The highest bit is looked at first. -/
theorem mod_le_succ (v c n : Nat) :
    decide (v % 2 ^ (n + 1) ≤ c % 2 ^ (n + 1)) =
      if c.testBit n then !v.testBit n || decide (v % 2 ^ n ≤ c % 2 ^ n)
      else !v.testBit n && decide (v % 2 ^ n ≤ c % 2 ^ n) := by
  have hv := Nat.mod_lt v (Nat.two_pow_pos n)
  have hc := Nat.mod_lt c (Nat.two_pow_pos n)
  rw [Nat.mod_pow_succ, Nat.mod_pow_succ, ← Nat.toNat_testBit,
    ← Nat.toNat_testBit]
  cases v.testBit n <;> cases c.testBit n <;>
    simp only [Bool.toNat_true, Bool.toNat_false, if_true, Bool.false_eq_true,
      if_false, Bool.not_true, Bool.not_false, Bool.true_or, Bool.false_or,
      Bool.true_and, Bool.false_and, decide_eq_decide, decide_eq_true_eq,
      decide_eq_false_iff_not] <;>
    omega

/-- The same bits from `i` on. -/
theorem div_two_pow_eq_iff {v c i : Nat} :
    v / 2 ^ i = c / 2 ^ i ↔ ∀ j, i ≤ j → v.testBit j = c.testBit j := by
  constructor
  · intro h j hj
    have hbit := congrArg (Nat.testBit · (j - i)) h
    simpa only [Nat.testBit_div_two_pow, Nat.sub_add_cancel hj] using hbit
  · intro h
    apply Nat.eq_of_testBit_eq
    intro j
    rw [Nat.testBit_div_two_pow, Nat.testBit_div_two_pow]
    exact h (j + i) (Nat.le_add_left i j)

theorem div_two_pow (v i : Nat) :
    v / 2 ^ i = 2 * (v / 2 ^ (i + 1)) + (v.testBit i).toNat := by
  have hbit : (v.testBit i).toNat = v / 2 ^ i % 2 := Nat.toNat_testBit v i
  rw [hbit, Nat.pow_succ, ← Nat.div_div_eq_div_mul]
  exact (Nat.div_add_mod (v / 2 ^ i) 2).symm

/-- The highest bit that differs decides. -/
theorem lt_iff_highest {v c : Nat} :
    v < c ↔ ∃ i, v.testBit i = false ∧ c.testBit i = true ∧
      v / 2 ^ (i + 1) = c / 2 ^ (i + 1) := by
  constructor
  · intro h
    obtain ⟨i, hi, hhigh⟩ := Nat.exists_most_significant_bit
      (Nat.xor_ne_zero_iff.mpr (Nat.ne_of_lt h))
    have heq : v / 2 ^ (i + 1) = c / 2 ^ (i + 1) := by
      rw [div_two_pow_eq_iff]
      intro j hj
      have hsame := hhigh j hj
      rwa [Nat.testBit_xor, bne_eq_false_iff_eq] at hsame
    have hle := Nat.div_le_div_right (c := 2 ^ i) (Nat.le_of_lt h)
    rw [div_two_pow v, div_two_pow c, heq] at hle
    rw [Nat.testBit_xor] at hi
    refine ⟨i, ?_⟩
    revert hi hle
    cases v.testBit i <;> cases c.testBit i <;> simp [heq]
  · rintro ⟨i, hv, hc, heq⟩
    refine Nat.lt_of_div_lt_div (c := 2 ^ i) ?_
    rw [div_two_pow v, div_two_pow c, hv, hc, heq]
    exact Nat.lt_succ_self _

theorem ne_iff_highest {v c : Nat} :
    v ≠ c ↔ ∃ i, v.testBit i ≠ c.testBit i ∧
      v / 2 ^ (i + 1) = c / 2 ^ (i + 1) := by
  constructor
  · intro h
    rcases Nat.lt_or_gt_of_ne h with hlt | hgt
    · obtain ⟨i, hv, hc, heq⟩ := lt_iff_highest.mp hlt
      exact ⟨i, by rw [hv, hc]; decide, heq⟩
    · obtain ⟨i, hc, hv, heq⟩ := lt_iff_highest.mp hgt
      exact ⟨i, by rw [hv, hc]; decide, heq.symm⟩
  · rintro ⟨i, hne, -⟩ rfl
    exact hne rfl

/-- A mask for the bits from `i` on, and a number with bit `i` of `c` turned
over and its higher bits. -/
theorem and_eq_twisted {v c m k w i : Nat} (hv : v < 2 ^ w) (hc : c < 2 ^ w)
    (hk : k < 2 ^ w) (hi : i < w)
    (hm : ∀ j < w, m.testBit j = decide (i ≤ j))
    (hbit : ∀ j < w, k.testBit j =
      ((c.testBit j && decide (i ≤ j)) ^^ decide (j = i))) :
    v &&& m = k ↔
      v.testBit i ≠ c.testBit i ∧ v / 2 ^ (i + 1) = c / 2 ^ (i + 1) := by
  have hlarge {n j : Nat} (hn : n < 2 ^ w) (hj : ¬j < w) :
      n.testBit j = false :=
    Nat.testBit_lt_two_pow (Nat.lt_of_lt_of_le hn
      (Nat.pow_le_pow_right (by decide) (Nat.not_lt.mp hj)))
  rw [div_two_pow_eq_iff]
  constructor
  · intro h
    have hsame (j : Nat) (hj : j < w) :
        (v.testBit j && decide (i ≤ j)) =
          ((c.testBit j && decide (i ≤ j)) ^^ decide (j = i)) := by
      rw [← hm j hj, ← Nat.testBit_and, h, hbit j hj, hm j hj]
    constructor
    · have := hsame i hi
      simp only [Nat.le_refl, decide_true, Bool.and_true, Bool.xor_true] at this
      rw [this]
      cases c.testBit i <;> decide
    · intro j hj
      by_cases hjw : j < w
      · have := hsame j hjw
        simpa [show i ≤ j by omega, show j ≠ i by omega] using this
      · rw [hlarge hv hjw, hlarge hc hjw]
  · rintro ⟨hne, hhigh⟩
    apply Nat.eq_of_testBit_eq
    intro j
    by_cases hjw : j < w
    · rw [Nat.testBit_and, hm j hjw, hbit j hjw]
      rcases Nat.lt_trichotomy j i with hlt | rfl | hgt
      · simp [Nat.not_le.mpr hlt, Nat.ne_of_lt hlt]
      · revert hne
        cases v.testBit j <;> cases c.testBit j <;> simp
      · rw [hhigh j hgt]
        simp [Nat.le_of_lt hgt, Nat.ne_of_gt hgt]
    · rw [Nat.testBit_and, hlarge hv hjw, hlarge hk hjw, Bool.false_and]

end BitOrder
