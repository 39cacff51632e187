import Tcng.Lib.U128

/-! Arithmetic and comparison of 128-bit integers (`u128.c`). -/

namespace U128

/-! ## Carries and borrows -/

/-- A carry goes into a word, and possibly out of it again. -/
def carryWord (a : BitVec 32) (carry : Bool) : BitVec 32 × Bool :=
  if carry then (a + 1, a + 1 == 0) else (a, false)

/-- One round of the loop of `u128_add`: the new word and `carry`. -/
def addWord (a b : BitVec 32) (carry : Bool) : BitVec 32 × Bool :=
  let (a, carry) := carryWord a carry
  let sum := a + b
  (sum, if sum < b then true else carry)

def add (a b : U128) : U128 :=
  let (v0, carry) := addWord a.v0 b.v0 false
  let (v1, carry) := addWord a.v1 b.v1 carry
  let (v2, carry) := addWord a.v2 b.v2 carry
  let (v3, _) := addWord a.v3 b.v3 carry
  ⟨v0, v1, v2, v3⟩

/-- One round of the loop of `u128_sub`: the new word and `borrow`. -/
def subWord (a b : BitVec 32) (borrow : Bool) : BitVec 32 × Bool :=
  let (a, borrow) := if borrow then (a - 1, a == 0) else (a, false)
  (a - b, if a < b then true else borrow)

def sub (a b : U128) : U128 :=
  let (v0, borrow) := subWord a.v0 b.v0 false
  let (v1, borrow) := subWord a.v1 b.v1 borrow
  let (v2, borrow) := subWord a.v2 b.v2 borrow
  let (v3, _) := subWord a.v3 b.v3 borrow
  ⟨v0, v1, v2, v3⟩

/-- One round of the loop of `u128_minus`. -/
def minusWord (a : BitVec 32) (carry : Bool) : BitVec 32 × Bool :=
  carryWord (~~~a) carry

def minus (a : U128) : U128 :=
  let (v0, carry) := minusWord a.v0 true
  let (v1, carry) := minusWord a.v1 carry
  let (v2, carry) := minusWord a.v2 carry
  let (v3, _) := minusWord a.v3 carry
  ⟨v0, v1, v2, v3⟩

def add32 (a : U128) (b : BitVec 32) : U128 :=
  let v0 := a.v0 + b
  if v0 < b then
    if a.v1 + 1 = 0 then
      if a.v2 + 1 = 0 then ⟨v0, a.v1 + 1, a.v2 + 1, a.v3 + 1⟩
      else ⟨v0, a.v1 + 1, a.v2 + 1, a.v3⟩
    else ⟨v0, a.v1 + 1, a.v2, a.v3⟩
  else { a with v0 := v0 }

/-- The loop is left at the first word that is not zero. -/
def sub32 (a : U128) (b : BitVec 32) : U128 :=
  let v0 := a.v0 - b
  if a.v0 < b then
    if a.v1 ≠ 0 then ⟨v0, a.v1 - 1, a.v2, a.v3⟩
    else if a.v2 ≠ 0 then ⟨v0, a.v1 - 1, a.v2 - 1, a.v3⟩
    else ⟨v0, a.v1 - 1, a.v2 - 1, a.v3 - 1⟩
  else { a with v0 := v0 }

def subFrom32 (a : BitVec 32) (b : U128) : U128 := b.minus.add32 a

private theorem beq_zero_iff (a : BitVec 32) :
    (a == 0) = decide (a.toNat = 0) := by
  rw [Bool.eq_iff_iff, beq_iff_eq, decide_eq_true_eq, ← BitVec.toNat_inj]
  rfl

private theorem carryWord_toNat (a : BitVec 32) (carry : Bool) :
    (carryWord a carry).1.toNat + 2 ^ 32 * (carryWord a carry).2.toNat =
      a.toNat + carry.toNat := by
  have ha := a.isLt
  cases carry with
  | false => rfl
  | true =>
      have hnext : (a + 1).toNat = (a.toNat + 1) % 2 ^ 32 := BitVec.toNat_add _ _
      simp only [carryWord, if_true, beq_zero_iff, hnext, Bool.toNat_true]
      by_cases hzero : (a.toNat + 1) % 2 ^ 32 = 0
      · simp only [hzero, decide_true, Bool.toNat_true]
        omega
      · simp only [hzero, decide_false, Bool.toNat_false]
        omega

/-- A word that is all zeros after a carry takes no second one. -/
private theorem carryWord_eq_zero {a : BitVec 32} {carry : Bool}
    (h : (carryWord a carry).2 = true) : (carryWord a carry).1.toNat = 0 := by
  have hsum := carryWord_toNat a carry
  have ha := a.isLt
  have hcarry := Bool.toNat_le carry
  rw [h, Bool.toNat_true] at hsum
  omega

/-- The carry counts for one in the next word. -/
private theorem addWord_toNat (a b : BitVec 32) (carry : Bool) :
    (addWord a b carry).1.toNat + 2 ^ 32 * (addWord a b carry).2.toNat =
      a.toNat + b.toNat + carry.toNat := by
  have hcarry := carryWord_toNat a carry
  have hzero : (carryWord a carry).2 = true →
      (carryWord a carry).1.toNat = 0 := carryWord_eq_zero
  have hb := b.isLt
  have hlt := (carryWord a carry).1.isLt
  simp only [addWord, BitVec.lt_def, BitVec.toNat_add]
  cases hout : (carryWord a carry).2 with
  | false =>
      rw [hout, Bool.toNat_false] at hcarry
      split
      · simp only [Bool.toNat_true]
        omega
      · simp only [Bool.toNat_false]
        omega
  | true =>
      have hnone := hzero hout
      rw [hout, Bool.toNat_true] at hcarry
      simp only [ite_self, Bool.toNat_true]
      omega

/-- The borrow counts for one in the next word. -/
private theorem subWord_toNat (a b : BitVec 32) (borrow : Bool) :
    (subWord a b borrow).1.toNat + b.toNat + borrow.toNat =
      a.toNat + 2 ^ 32 * (subWord a b borrow).2.toNat := by
  have ha := a.isLt
  have hb := b.isLt
  cases borrow with
  | false =>
      simp only [subWord, Bool.false_eq_true, if_false, BitVec.lt_def,
        BitVec.toNat_sub]
      split <;> simp <;> omega
  | true =>
      by_cases hzero : a = 0
      · have htop : (a - 1).toNat = 2 ^ 32 - 1 := by
          rw [hzero]
          rfl
        have hnone : a.toNat = 0 := by
          rw [hzero]
          rfl
        have hdiff : (a - 1 - b).toNat = 2 ^ 32 - 1 - b.toNat := by
          rw [BitVec.toNat_sub, htop]
          omega
        simp only [subWord, if_true, beq_iff_eq.mpr hzero, ite_self, hdiff,
          Bool.toNat_true]
        omega
      · have hpos : a.toNat ≠ 0 := fun h => hzero (BitVec.eq_of_toNat_eq h)
        have hprev : (a - 1).toNat = a.toNat - 1 := by
          simp only [BitVec.toNat_sub, BitVec.ofNat_eq_ofNat,
            BitVec.toNat_ofNat]
          omega
        have hdiff : (a - 1 - b).toNat =
            (2 ^ 32 - b.toNat + (a.toNat - 1)) % 2 ^ 32 := by
          rw [BitVec.toNat_sub, hprev]
        simp only [subWord, if_true, BitVec.lt_def, hprev, hdiff,
          beq_eq_false_iff_ne.mpr hzero]
        split <;> simp <;> omega

private theorem minusWord_toNat (a : BitVec 32) (carry : Bool) :
    (minusWord a carry).1.toNat + 2 ^ 32 * (minusWord a carry).2.toNat +
      a.toNat = 2 ^ 32 - 1 + carry.toNat := by
  have ha := a.isLt
  have hnot : (~~~a).toNat = 2 ^ 32 - 1 - a.toNat := BitVec.toNat_not
  have hcarry := carryWord_toNat (~~~a) carry
  rw [hnot] at hcarry
  simp only [minusWord]
  omega

theorem toNat_add_mod (a b : U128) :
    (a.add b).toNat = (a.toNat + b.toNat) % 2 ^ 128 := by
  have h0 := addWord_toNat a.v0 b.v0 false
  have h1 := addWord_toNat a.v1 b.v1 (addWord a.v0 b.v0 false).2
  have h2 := addWord_toNat a.v2 b.v2
    (addWord a.v1 b.v1 (addWord a.v0 b.v0 false).2).2
  have h3 := addWord_toNat a.v3 b.v3
    (addWord a.v2 b.v2 (addWord a.v1 b.v1 (addWord a.v0 b.v0 false).2).2).2
  have hlt := toNat_lt (a.add b)
  simp only [add, toNat, Bool.toNat_false] at h0 hlt ⊢
  omega

theorem toNat_sub_mod (a b : U128) :
    (a.sub b).toNat = (2 ^ 128 + a.toNat - b.toNat) % 2 ^ 128 := by
  have h0 := subWord_toNat a.v0 b.v0 false
  have h1 := subWord_toNat a.v1 b.v1 (subWord a.v0 b.v0 false).2
  have h2 := subWord_toNat a.v2 b.v2
    (subWord a.v1 b.v1 (subWord a.v0 b.v0 false).2).2
  have h3 := subWord_toNat a.v3 b.v3
    (subWord a.v2 b.v2 (subWord a.v1 b.v1 (subWord a.v0 b.v0 false).2).2).2
  have hlt := toNat_lt (a.sub b)
  have hb := toNat_lt b
  simp only [sub, toNat, Bool.toNat_false] at h0 hlt hb ⊢
  omega

theorem toNat_minus_mod (a : U128) :
    a.minus.toNat = (2 ^ 128 - a.toNat) % 2 ^ 128 := by
  have h0 := minusWord_toNat a.v0 true
  have h1 := minusWord_toNat a.v1 (minusWord a.v0 true).2
  have h2 := minusWord_toNat a.v2 (minusWord a.v1 (minusWord a.v0 true).2).2
  have h3 := minusWord_toNat a.v3
    (minusWord a.v2 (minusWord a.v1 (minusWord a.v0 true).2).2).2
  have hlt := toNat_lt a.minus
  have ha := toNat_lt a
  simp only [minus, toNat, Bool.toNat_true] at h0 hlt ha ⊢
  omega

/-! ## Mixed operations -/

theorem add32_eq (a : U128) (b : BitVec 32) :
    a.add32 b = a.add (ofBitVec32 b) := by
  by_cases hcarry : a.v0 + b < b
  · by_cases h1 : a.v1 + 1#32 = 0#32
    · by_cases h2 : a.v2 + 1#32 = 0#32
      · simp [add32, add, addWord, carryWord, ofBitVec32, hcarry, h1, h2]
      · simp [add32, add, addWord, carryWord, ofBitVec32, hcarry, h1, h2]
    · simp [add32, add, addWord, carryWord, ofBitVec32, hcarry, h1]
  · simp [add32, add, addWord, carryWord, ofBitVec32, hcarry]

theorem sub32_eq (a : U128) (b : BitVec 32) :
    a.sub32 b = a.sub (ofBitVec32 b) := by
  by_cases hborrow : a.v0 < b
  · by_cases h1 : a.v1 = 0#32
    · by_cases h2 : a.v2 = 0#32
      · simp [sub32, sub, subWord, ofBitVec32, hborrow, h1, h2]
      · simp [sub32, sub, subWord, ofBitVec32, hborrow, h1, h2]
    · simp [sub32, sub, subWord, ofBitVec32, hborrow, h1]
  · simp [sub32, sub, subWord, ofBitVec32, hborrow]

theorem toNat_sub32_one {a : U128} (h : a.toNat ≠ 0) :
    (a.sub32 1).toNat = a.toNat - 1 := by
  have ha := a.toNat_lt
  rw [sub32_eq, toNat_sub_mod, toNat_ofBitVec32,
    show (1 : BitVec 32).toNat = 1 from rfl]
  omega

theorem toNat_add32_one {a : U128} (h : a.toNat ≠ 2 ^ 128 - 1) :
    (a.add32 1).toNat = a.toNat + 1 := by
  have ha := a.toNat_lt
  rw [add32_eq, toNat_add_mod, toNat_ofBitVec32,
    show (1 : BitVec 32).toNat = 1 from rfl]
  omega

private theorem subFrom32_eq (n : BitVec 32) (a : U128) :
    subFrom32 n a = (ofBitVec32 n).sub a := by
  apply toNat_injective
  have ha := toNat_lt a
  rw [subFrom32, add32_eq, toNat_add_mod, toNat_minus_mod, toNat_sub_mod,
    toNat_ofBitVec32]
  omega

theorem toNat_shiftLeft (a : U128) (n : BitVec 32) :
    (a.shiftLeft n).toNat = a.toNat * 2 ^ n.toNat % 2 ^ 128 := by
  apply Nat.eq_of_testBit_eq
  intro i
  rw [testBit_toNat, bit_shiftLeft, ← Nat.shiftLeft_eq,
    Nat.testBit_mod_two_pow, Nat.testBit_shiftLeft, testBit_toNat]
  by_cases hi : i < 128 <;> simp [hi]

/-- Addition, subtraction, negation and shifts are those of the numbers modulo
`2 ^ 128`, and the mixed operations agree with them. -/
theorem arithmetic_toNat (a b : U128) (n : BitVec 32) :
    (a.add b).toNat = (a.toNat + b.toNat) % 2 ^ 128 ∧
      ((a.sub b).toNat : Int) = (a.toNat - b.toNat : Int) % 2 ^ 128 ∧
      (a.minus.toNat : Int) = (-a.toNat : Int) % 2 ^ 128 ∧
      (a.shiftLeft n).toNat = a.toNat * 2 ^ n.toNat % 2 ^ 128 ∧
      (a.shiftRight n).toNat = a.toNat / 2 ^ n.toNat ∧
      a.add32 n = a.add (ofBitVec32 n) ∧
      a.sub32 n = a.sub (ofBitVec32 n) ∧
      subFrom32 n a = (ofBitVec32 n).sub a := by
  have ha := toNat_lt a
  have hb := toNat_lt b
  refine ⟨toNat_add_mod a b, ?_, ?_, toNat_shiftLeft a n, ?_, add32_eq a n,
    sub32_eq a n, subFrom32_eq n a⟩
  · rw [toNat_sub_mod]
    omega
  · rw [toNat_minus_mod]
    omega
  · rw [toNat_shiftRight, Nat.shiftRight_eq_div_pow]

/-! ## Comparison -/

/-- Two words, `low` and `high`, are the first and the last one in which `a`
and `b` differ. -/
structure Differ (a b : U128) (low high : Nat) : Prop where
  lt : high < 4
  low_ne : a.word low ≠ b.word low
  below : ∀ i < low, a.word i = b.word i
  high_ne : a.word high ≠ b.word high
  above : ∀ i < 4, high < i → a.word i = b.word i

/-- The result tells how the two numbers compare. -/
def CmpCorrect (a b : U128) : Prop :=
  (a.cmp b < 0 ↔ a.toNat < b.toNat) ∧ (a.cmp b = 0 ↔ a.toNat = b.toNat) ∧
    (0 < a.cmp b ↔ b.toNat < a.toNat)

namespace Differ

variable {a b : U128} {low high : Nat}

theorem low_le (h : Differ a b low high) : low ≤ high := by
  by_contra hlt
  have hlow : low < 4 := by
    by_contra hge
    obtain ⟨k, rfl⟩ := Nat.exists_eq_add_of_le (Nat.not_lt.mp hge)
    exact h.low_ne (by rw [Nat.add_comm]; rfl)
  exact h.low_ne (h.above low hlow (by omega))

theorem cmp_eq (h : Differ a b low high) :
    a.cmp b = if a.word low < b.word low then -1 else 1 := by
  have hlow := h.low_le
  have hhigh := h.lt
  have hfind : [0, 1, 2, 3].find? (fun i => a.word i != b.word i) =
      some low := by
    obtain ⟨-, hne, hbelow, -, -⟩ := h
    have hlow4 : low < 4 := by omega
    interval_cases low <;> simp_all
  rw [cmp, hfind]

/-- The numbers compare as the last words that differ. -/
theorem toNat_lt_iff (h : Differ a b low high) :
    a.toNat < b.toNat ↔ a.word high < b.word high := by
  have hhigh := h.lt
  obtain ⟨-, -, -, hne, habove⟩ := h
  have a0 := a.v0.isLt
  have a1 := a.v1.isLt
  have a2 := a.v2.isLt
  have b0 := b.v0.isLt
  have b1 := b.v1.isLt
  have b2 := b.v2.isLt
  have h1 := habove 1 (by omega)
  have h2 := habove 2 (by omega)
  have h3 := habove 3 (by omega)
  rw [ne_eq, ← BitVec.toNat_inj] at hne
  rw [← BitVec.toNat_inj] at h1 h2 h3
  rw [BitVec.lt_def]
  interval_cases high <;> simp only [word, toNat] at * <;> omega

theorem toNat_ne (h : Differ a b low high) : a.toNat ≠ b.toNat := by
  intro heq
  exact h.low_ne (by rw [toNat_injective heq])

end Differ

private theorem exists_differ {a b : U128} (h : a ≠ b) :
    ∃ low high, Differ a b low high := by
  have hsome : ∃ i, i < 4 ∧ a.word i ≠ b.word i := by
    by_contra hnone
    push Not at hnone
    apply h
    cases a
    cases b
    have h0 := hnone 0 (by omega)
    have h1 := hnone 1 (by omega)
    have h2 := hnone 2 (by omega)
    have h3 := hnone 3 (by omega)
    simp only [word] at h0 h1 h2 h3
    rw [h0, h1, h2, h3]
  obtain ⟨i, hi, hne⟩ := hsome
  have hex : ∃ k, a.word k ≠ b.word k := ⟨i, hne⟩
  have hlast := Nat.findGreatest_spec
    (P := fun k => a.word k ≠ b.word k) (n := 3) (by omega) hne
  refine ⟨Nat.find hex, Nat.findGreatest (fun k => a.word k ≠ b.word k) 3,
    ?_, Nat.find_spec hex, ?_, hlast, ?_⟩
  · exact Nat.lt_succ_of_le (Nat.findGreatest_le 3)
  · intro k hk
    exact not_not.mp (Nat.find_min hex hk)
  · intro k hk hlt
    exact not_not.mp (Nat.findGreatest_is_greatest hlt (by omega))

/-- The first words that differ are compared: that is right exactly if the last
ones compare alike. -/
theorem cmpCorrect_iff (a b : U128) :
    CmpCorrect a b ↔ ∀ low high, Differ a b low high →
      (a.word low < b.word low ↔ a.word high < b.word high) := by
  by_cases hab : a = b
  · subst hab
    have hcmp : a.cmp a = 0 := (cmp_eq_zero_iff a a).mpr rfl
    constructor
    · intro _ low high h
      exact absurd rfl h.low_ne
    · intro _
      simp [CmpCorrect, hcmp]
  · obtain ⟨low, high, h⟩ := exists_differ hab
    have hlt := h.toNat_lt_iff
    have hne := h.toNat_ne
    have hcmp := h.cmp_eq
    constructor
    · rintro ⟨hneg, -, -⟩ low' high' h'
      rw [← h'.toNat_lt_iff, ← hneg, h'.cmp_eq]
      split <;> simp_all
    · intro hall
      have hiff := hall low high h
      rw [CmpCorrect, hcmp]
      by_cases hword : a.word low < b.word low
      · have hsmaller := hlt.mpr (hiff.mp hword)
        rw [if_pos hword]
        omega
      · have hgreater : ¬a.toNat < b.toNat := fun hsmaller =>
          hword (hiff.mpr (hlt.mp hsmaller))
        rw [if_neg hword]
        omega

/-- 2 ^ 32 against 1: the lowest word decides. -/
theorem cmp_lowestWord : ¬∀ a b : U128, CmpCorrect a b := by
  intro h
  have hcorrect := (h ⟨0, 1, 0, 0⟩ ⟨1, 0, 0, 0⟩).1
  revert hcorrect
  decide

end U128
