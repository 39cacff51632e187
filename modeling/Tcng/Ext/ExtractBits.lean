import Tcng.Ext.Match

/-! The bits of bytes, and what `extract_bits` takes out of them. -/

namespace Tcng

theorem readBits_zero_length (f : Nat → Bool) (s : Nat) :
    readBits f s 0 = 0 :=
  Nat.lt_one_iff.mp (readBits_lt f s 0)

theorem readBits_add (f : Nat → Bool) (s m n : Nat) :
    readBits f s (m + n) = readBits f s m * 2 ^ n + readBits f (s + m) n := by
  apply Nat.eq_of_testBit_eq
  intro i
  rw [Nat.mul_comm, Nat.testBit_two_pow_mul_add _ (readBits_lt _ _ _),
    testBit_readBits, testBit_readBits, testBit_readBits]
  split
  · next hi =>
      have hindex : s + (m + n - 1 - i) = s + m + (n - 1 - i) := by omega
      rw [hindex, decide_eq_true hi, decide_eq_true (by omega)]
  · next hi =>
      by_cases hlt : i < m + n
      · have hindex : s + (m + n - 1 - i) = s + (m - 1 - (i - n)) := by omega
        rw [hindex, decide_eq_true hlt, decide_eq_true (by omega)]
      · rw [decide_eq_false hlt, decide_eq_false (by omega), Bool.false_and,
          Bool.false_and]

theorem readBits_shiftRight (f : Nat → Bool) (s m n : Nat) :
    readBits f s (m + n) >>> n = readBits f s m := by
  rw [readBits_add, Nat.shiftRight_eq_div_pow, Nat.mul_comm,
    Nat.mul_add_div (Nat.two_pow_pos n),
    Nat.div_eq_of_lt (readBits_lt _ _ _), Nat.add_zero]

theorem readBits_mod (f : Nat → Bool) (s m n : Nat) :
    readBits f s (m + n) % 2 ^ n = readBits f (s + m) n := by
  rw [readBits_add, Nat.mul_comm, Nat.mul_add_mod,
    Nat.mod_eq_of_lt (readBits_lt _ _ _)]

/-- Numbers of the same length agree if their bits do. -/
theorem readBits_inj {f g : Nat → Bool} {s t n : Nat} :
    readBits f s n = readBits g t n ↔ ∀ i < n, f (s + i) = g (t + i) := by
  constructor
  · intro heq i hi
    have hbit := congrArg (Nat.testBit · (n - 1 - i)) heq
    have hback : n - 1 - (n - 1 - i) = i := by omega
    simp only [testBit_readBits] at hbit
    rw [decide_eq_true (by omega), Bool.true_and, Bool.true_and, hback] at hbit
    exact hbit
  · intro hall
    apply Nat.eq_of_testBit_eq
    intro i
    rw [testBit_readBits, testBit_readBits]
    by_cases hi : i < n
    · rw [hall (n - 1 - i) (by omega)]
    · rw [decide_eq_false hi, Bool.false_and, Bool.false_and]

namespace Ext

/-- The bit at a place, the highest one of a byte first. -/
def rawBit (data : Nat → BitVec 8) (i : Nat) : Bool :=
  (data (i / 8)).getMsbD (i % 8)

theorem readBits_byte (data : Nat → BitVec 8) (k : Nat) :
    readBits (rawBit data) (8 * k) 8 = (data k).toNat := by
  apply Nat.eq_of_testBit_eq
  intro i
  rw [testBit_readBits, BitVec.testBit_toNat]
  by_cases hi : i < 8
  · have hdiv : (8 * k + (8 - 1 - i)) / 8 = k := by omega
    have hmod : (8 * k + (8 - 1 - i)) % 8 = 7 - i := by omega
    have hback : 8 - 1 - (7 - i) = i := by omega
    rw [decide_eq_true hi, Bool.true_and, rawBit, hdiv, hmod,
      BitVec.getMsbD_eq_getLsbD, decide_eq_true (by omega), Bool.true_and,
      hback]
  · rw [decide_eq_false hi, Bool.false_and,
      BitVec.getLsbD_of_ge _ _ (Nat.le_of_not_lt hi)]

/-- The bits of a byte from some bit on. -/
theorem readBits_byte_end (data : Nat → BitVec 8) (start : Nat) :
    readBits (rawBit data) start (8 - start % 8) =
      (data (start / 8)).toNat % 2 ^ (8 - start % 8) := by
  have hlt := Nat.mod_lt start (by decide : 0 < 8)
  have hsplit := readBits_mod (rawBit data) (8 * (start / 8)) (start % 8)
    (8 - start % 8)
  have hwhole : start % 8 + (8 - start % 8) = 8 := by omega
  rw [hwhole, readBits_byte, Nat.div_add_mod] at hsplit
  exact hsplit.symm

/-- Another byte behind a number of `m` bits. -/
theorem shift_in_byte {data : Nat → BitVec 8} {start m next : Nat}
    {res : BitVec 32} (hm : m + 8 ≤ 32) (hnext : start + m = 8 * next)
    (hres : res.toNat = readBits (rawBit data) start m) :
    (res <<< 8 ||| (data next).setWidth 32).toNat =
      readBits (rawBit data) start (m + 8) := by
  have hlt := readBits_lt (rawBit data) start m
  have hpow : 2 ^ m * 2 ^ 8 ≤ 2 ^ 32 := by
    rw [← Nat.pow_add]
    exact Nat.pow_le_pow_right (by decide) hm
  have hshift : (res <<< 8).toNat = res.toNat * 2 ^ 8 := by
    rw [BitVec.toNat_shiftLeft, Nat.shiftLeft_eq, Nat.mod_eq_of_lt]
    rw [hres]
    exact Nat.lt_of_lt_of_le
      (Nat.mul_lt_mul_of_pos_right hlt (by decide)) hpow
  have hbyte : ((data next).setWidth 32).toNat = (data next).toNat := by
    rw [BitVec.toNat_setWidth]
    exact Nat.mod_eq_of_lt (Nat.lt_trans (data next).isLt (by decide))
  rw [BitVec.toNat_or, hshift, hbyte, readBits_add, hnext, readBits_byte,
    ← hres, Nat.mul_comm, ← Nat.two_pow_add_eq_or_of_lt (data next).isLt]

/-- `m` bits are there and `bits` are missing, where `m + bits` are wanted. -/
theorem extractLoop_spec (data : Nat → BitVec 8) {start wanted : Nat}
    (hwanted : wanted + start % 8 ≤ 32) (next : Nat) (res : BitVec 32)
    (bits : Int) (m : Nat) (hbits : m + bits = wanted)
    (hnext : start + m = 8 * next)
    (hres : res.toNat = readBits (rawBit data) start m) :
    ∃ m' : Nat, m' + (extractLoop data next res bits).2 = wanted ∧
      (extractLoop data next res bits).2 ≤ 0 ∧
      (extractLoop data next res bits).1.toNat =
        readBits (rawBit data) start m' := by
  fun_induction extractLoop data next res bits generalizing m with
  | case1 next res bits hpos ih =>
      have hm : m + 8 ≤ 32 := by omega
      refine ih (m + 8) (by omega) (by omega) ?_
      exact shift_in_byte hm hnext hres
  | case2 next res bits hpos =>
      exact ⟨m, hbits, Int.not_lt.mp hpos, hres⟩

theorem extractBits_spec (data : Nat → BitVec 8) {start bits : Nat}
    (h : bits + start % 8 ≤ 32) :
    ∃ r, extractBits data start bits = .ok r ∧
      r.toNat = readBits (rawBit data) start bits := by
  have hlt := Nat.mod_lt start (by decide : 0 < 8)
  have hfirst : ((data (start / 8)).setWidth 32 &&&
      ((1 <<< (8 - start % 8)) - 1)).toNat =
        readBits (rawBit data) start (8 - start % 8) := by
    have hmask : ∀ t < 8, ((1 <<< (8 - t)) - 1 : BitVec 32).toNat =
        2 ^ (8 - t) - 1 := by decide
    rw [BitVec.toNat_and, hmask _ hlt, BitVec.toNat_setWidth,
      Nat.mod_eq_of_lt (Nat.lt_trans (data (start / 8)).isLt (by decide)),
      Nat.and_two_pow_sub_one_eq_mod, readBits_byte_end]
  obtain ⟨m, hm, hdone, hres⟩ := extractLoop_spec data h
    (start / 8 + 1) _ (bits - (8 - start % 8 : Nat)) (8 - start % 8)
    (by omega) (by omega) hfirst
  rw [extractBits, if_neg (by omega)]
  refine ⟨_, rfl, ?_⟩
  -- `m` bits were read, which are too many if `bits` went below zero
  generalize extractLoop data (start / 8 + 1) _ _ = result at hm hdone hres
  obtain ⟨res, left⟩ := result
  dsimp only at hm hdone hres ⊢
  obtain ⟨extra, hextra⟩ := Int.eq_ofNat_of_zero_le (Int.neg_nonneg.mpr hdone)
  have htotal : m = bits + extra := by omega
  split
  · rw [hextra, BitVec.toNat_ushiftRight, hres, htotal, Int.toNat_natCast,
      readBits_shiftRight]
  · next hzero =>
      have hnone : extra = 0 := by omega
      rw [hres, htotal, hnone, Nat.add_zero]

end Ext

end Tcng
