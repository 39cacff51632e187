import Mathlib.Data.Nat.Bitwise
import Mathlib.Tactic.IntervalCases

/-! 128-bit integers as four 32-bit words, the least significant word first. -/

structure U128 where
  v0 : BitVec 32
  v1 : BitVec 32
  v2 : BitVec 32
  v3 : BitVec 32
  deriving DecidableEq, Repr

namespace U128

def word (a : U128) : Nat → BitVec 32
  | 0 => a.v0
  | 1 => a.v1
  | 2 => a.v2
  | 3 => a.v3
  | _ => 0

def setWord (a : U128) (i : Nat) (w : BitVec 32) : U128 :=
  match i with
  | 0 => { a with v0 := w }
  | 1 => { a with v1 := w }
  | 2 => { a with v2 := w }
  | 3 => { a with v3 := w }
  | _ => a

def and (a b : U128) : U128 :=
  ⟨a.v0 &&& b.v0, a.v1 &&& b.v1, a.v2 &&& b.v2, a.v3 &&& b.v3⟩

def or (a b : U128) : U128 :=
  ⟨a.v0 ||| b.v0, a.v1 ||| b.v1, a.v2 ||| b.v2, a.v3 ||| b.v3⟩

def xor (a b : U128) : U128 :=
  ⟨a.v0 ^^^ b.v0, a.v1 ^^^ b.v1, a.v2 ^^^ b.v2, a.v3 ^^^ b.v3⟩

def not (a : U128) : U128 := ⟨~~~a.v0, ~~~a.v1, ~~~a.v2, ~~~a.v3⟩

def shiftLeftWord (words bits : Nat) (a : U128) (i : Nat) : U128 :=
  if words ≤ i then
    let w := a.word (i - words) <<< bits
    a.setWord i
      (if bits ≠ 0 ∧ words < i then
        w ||| a.word (i - words - 1) >>> (32 - bits)
      else w)
  else a.setWord i 0

/-- The words are rewritten in place from the most significant one down. -/
def shiftLeft (a : U128) (n : BitVec 32) : U128 :=
  [3, 2, 1, 0].foldl (shiftLeftWord (n.toNat / 32) (n.toNat % 32)) a

def shiftRightWord (words bits : Nat) (a : U128) (i : Nat) : U128 :=
  if i < 4 - words then
    let w := a.word (i + words) >>> bits
    a.setWord i
      (if bits ≠ 0 ∧ i < 4 - words - 1 then
        w ||| a.word (i + words + 1) <<< (32 - bits)
      else w)
  else a.setWord i 0

/-- The words are rewritten in place from the least significant one up. -/
def shiftRight (a : U128) (n : BitVec 32) : U128 :=
  [0, 1, 2, 3].foldl (shiftRightWord (n.toNat / 32) (n.toNat % 32)) a

def ofBitVec32 (n : BitVec 32) : U128 := ⟨n, 0, 0, 0⟩

/-- `~0` -/
def ones : U128 := not (ofBitVec32 0)

/-- `u128_is_32` -/
def is32 (a : U128) : Bool := a.v1 == 0 && (a.v2 == 0 && a.v3 == 0)

def and32 (a : U128) (n : BitVec 32) : U128 := { a with v0 := a.v0 &&& n }

/-- Words are compared in index order: the first difference decides. -/
def cmp (a b : U128) : Int :=
  match [0, 1, 2, 3].find? fun i => a.word i != b.word i with
  | some i => if a.word i < b.word i then -1 else 1
  | none => 0

def isZero (a : U128) : Bool :=
  [0, 1, 2, 3].all fun i => a.word i == 0

def toNat (a : U128) : Nat :=
  a.v0.toNat + 2 ^ 32 * (a.v1.toNat + 2 ^ 32 * (a.v2.toNat + 2 ^ 32 * a.v3.toNat))

/-- The number modulo `2 ^ 128`. -/
def ofNat (n : Nat) : U128 :=
  ⟨.ofNat 32 n, .ofNat 32 (n / 2 ^ 32), .ofNat 32 (n / 2 ^ 64),
    .ofNat 32 (n / 2 ^ 96)⟩

/-! Every operation is described by its effect on the bits. -/

def bit (a : U128) (i : Nat) : Bool := (a.word (i / 32)).getLsbD (i % 32)

theorem bit_of_ge (a : U128) {i : Nat} (h : 128 ≤ i) : a.bit i = false := by
  have hword : 4 ≤ i / 32 := by omega
  obtain ⟨k, hk⟩ := Nat.exists_eq_add_of_le hword
  simp [bit, hk, word, Nat.add_comm 4 k]

theorem ext_bit {a b : U128} (h : ∀ i < 128, a.bit i = b.bit i) : a = b := by
  have hword : ∀ k < 4, a.word k = b.word k := by
    intro k hk
    apply BitVec.eq_of_getLsbD_eq
    intro i hi
    have := h (32 * k + i) (by omega)
    simpa [bit, Nat.mul_add_div, Nat.mul_add_mod, Nat.div_eq_of_lt hi,
      Nat.mod_eq_of_lt hi] using this
  obtain ⟨a0, a1, a2, a3⟩ := a
  obtain ⟨b0, b1, b2, b3⟩ := b
  have h0 := hword 0 (by omega)
  have h1 := hword 1 (by omega)
  have h2 := hword 2 (by omega)
  have h3 := hword 3 (by omega)
  simp only [word] at h0 h1 h2 h3
  simp [h0, h1, h2, h3]

theorem testBit_toNat (a : U128) (i : Nat) : a.toNat.testBit i = a.bit i := by
  have split (n : BitVec 32) (m j : Nat) :
      (n.toNat + 2 ^ 32 * m).testBit j =
        if j < 32 then n.getLsbD j else m.testBit (j - 32) := by
    rw [Nat.add_comm, Nat.testBit_two_pow_mul_add _ n.isLt]
    rfl
  by_cases hi : i < 128
  · have hq : i / 32 < 4 := by omega
    have hr := Nat.mod_add_div i 32
    simp only [toNat, split, bit]
    interval_cases hk : i / 32
    · rw [if_pos (by omega)]
      simp [word, Nat.mod_eq_of_lt (show i < 32 by omega)]
    · rw [if_neg (by omega), if_pos (by omega)]
      simp [word, show i - 32 = i % 32 by omega]
    · rw [if_neg (by omega), if_neg (by omega), if_pos (by omega)]
      simp [word, show i - 32 - 32 = i % 32 by omega]
    · rw [if_neg (by omega), if_neg (by omega), if_neg (by omega)]
      simp [word, show i - 32 - 32 - 32 = i % 32 by omega,
        BitVec.testBit_toNat]
  · rw [bit_of_ge a (by omega)]
    simp only [toNat, split]
    rw [if_neg (by omega), if_neg (by omega), if_neg (by omega),
      BitVec.testBit_toNat, BitVec.getLsbD_of_ge _ _ (by omega)]

theorem toNat_injective {a b : U128} (h : a.toNat = b.toNat) : a = b := by
  apply ext_bit
  intro i _
  rw [← testBit_toNat, ← testBit_toNat, h]

theorem toNat_lt (a : U128) : a.toNat < 2 ^ 128 := by
  have h0 := a.v0.isLt
  have h1 := a.v1.isLt
  have h2 := a.v2.isLt
  have h3 := a.v3.isLt
  unfold toNat
  omega

@[simp] theorem word_and (a b : U128) (i : Nat) :
    (a.and b).word i = a.word i &&& b.word i := by
  unfold word and
  split <;> simp

@[simp] theorem bit_and (a b : U128) (i : Nat) :
    (a.and b).bit i = (a.bit i && b.bit i) := by
  simp [bit]

theorem toNat_and (a b : U128) : (a.and b).toNat = a.toNat &&& b.toNat := by
  apply Nat.eq_of_testBit_eq
  intro i
  rw [Nat.testBit_and, testBit_toNat, testBit_toNat, testBit_toNat, bit_and]

theorem bit_not (a : U128) {i : Nat} (h : i < 128) :
    a.not.bit i = !a.bit i := by
  have hq : i / 32 < 4 := by omega
  have hword : a.not.word (i / 32) = ~~~(a.word (i / 32)) := by
    interval_cases i / 32 <;> rfl
  rw [bit, hword, BitVec.getLsbD_not, bit]
  simp [Nat.mod_lt i (show 0 < 32 by omega)]

@[simp] theorem bit_or (a b : U128) (i : Nat) :
    (a.or b).bit i = (a.bit i || b.bit i) := by
  have hword : (a.or b).word (i / 32) = a.word (i / 32) ||| b.word (i / 32) := by
    unfold word or
    split <;> simp
  simp [bit, hword]

@[simp] theorem bit_xor (a b : U128) (i : Nat) :
    (a.xor b).bit i = (a.bit i != b.bit i) := by
  have hword : (a.xor b).word (i / 32) = a.word (i / 32) ^^^ b.word (i / 32) := by
    unfold word xor
    split <;> simp
  simp [bit, hword]

theorem toNat_or (a b : U128) : (a.or b).toNat = a.toNat ||| b.toNat := by
  apply Nat.eq_of_testBit_eq
  intro i
  rw [Nat.testBit_or, testBit_toNat, testBit_toNat, testBit_toNat, bit_or]

theorem toNat_xor (a b : U128) : (a.xor b).toNat = a.toNat ^^^ b.toNat := by
  apply Nat.eq_of_testBit_eq
  intro i
  rw [Nat.testBit_xor, testBit_toNat, testBit_toNat, testBit_toNat, bit_xor]

theorem toNat_not (a : U128) : a.not.toNat = 2 ^ 128 - 1 - a.toNat := by
  have hcompl : 2 ^ 128 - 1 - a.toNat = 2 ^ 128 - (a.toNat + 1) := by omega
  apply Nat.eq_of_testBit_eq
  intro i
  rw [testBit_toNat, hcompl, Nat.testBit_two_pow_sub_succ (toNat_lt a),
    testBit_toNat]
  by_cases hi : i < 128
  · rw [bit_not a hi, decide_eq_true hi, Bool.true_and]
  · rw [bit_of_ge _ (Nat.not_lt.mp hi), decide_eq_false hi, Bool.false_and]

theorem toNat_ones : ones.toNat = 2 ^ 128 - 1 := by decide

theorem bit_ones (i : Nat) : ones.bit i = decide (i < 128) := by
  rw [← testBit_toNat, toNat_ones, Nat.testBit_two_pow_sub_one]

theorem toNat_ofNat (n : Nat) : (ofNat n).toNat = n % 2 ^ 128 := by
  simp only [ofNat, toNat, BitVec.toNat_ofNat]
  omega

@[simp] theorem toNat_ofBitVec32 (n : BitVec 32) :
    (ofBitVec32 n).toNat = n.toNat := by
  simp [ofBitVec32, toNat]

@[simp] theorem bit_ofBitVec32 (n : BitVec 32) (i : Nat) :
    (ofBitVec32 n).bit i = n.getLsbD i := by
  rw [← testBit_toNat, toNat_ofBitVec32, BitVec.testBit_toNat]

private theorem word_shiftLeft (a : U128) (n : BitVec 32) {i : Nat}
    (hi : i < 4) :
    (a.shiftLeft n).word i =
      if n.toNat / 32 ≤ i then
        if n.toNat % 32 ≠ 0 ∧ n.toNat / 32 < i then
          a.word (i - n.toNat / 32) <<< (n.toNat % 32) |||
            a.word (i - n.toNat / 32 - 1) >>> (32 - n.toNat % 32)
        else a.word (i - n.toNat / 32) <<< (n.toNat % 32)
      else 0 := by
  unfold shiftLeft
  generalize n.toNat % 32 = bits
  by_cases hwords : n.toNat / 32 < 4
  · interval_cases n.toNat / 32 <;> interval_cases i <;>
      simp [shiftLeftWord, setWord, word]
  · generalize n.toNat / 32 = words at hwords
    have h3 : ¬ words ≤ 3 := by omega
    have h2 : ¬ words ≤ 2 := by omega
    have h1 : ¬ words ≤ 1 := by omega
    have h0 : ¬ words ≤ 0 := by omega
    have hle : ¬ words ≤ i := by omega
    simp only [List.foldl_cons, List.foldl_nil, shiftLeftWord, h3, h2, h1,
      h0, hle, if_false]
    interval_cases i <;> rfl

theorem bit_shiftLeft (a : U128) (n : BitVec 32) (i : Nat) :
    (a.shiftLeft n).bit i =
      (decide (i < 128 ∧ n.toNat ≤ i) && a.bit (i - n.toNat)) := by
  by_cases hi : i < 128
  · rw [bit, word_shiftLeft a n (show i / 32 < 4 by omega), bit]
    by_cases hle : n.toNat ≤ i
    · rw [if_pos (show n.toNat / 32 ≤ i / 32 by omega)]
      by_cases hbits : n.toNat % 32 ≤ i % 32
      · have hq : (i - n.toNat) / 32 = i / 32 - n.toNat / 32 := by omega
        have hr : (i - n.toNat) % 32 = i % 32 - n.toNat % 32 := by omega
        have hhigh : (a.word (i / 32 - n.toNat / 32 - 1)).getLsbD
            (32 - n.toNat % 32 + i % 32) = false ∨ n.toNat % 32 = 0 := by
          by_cases hz : n.toNat % 32 = 0
          · exact .inr hz
          · exact .inl (BitVec.getLsbD_of_ge _ _ (by omega))
        split
        · rename_i hcond
          have hhigh' := hhigh.resolve_right hcond.1
          simp [hq, hr, hi, hle, hhigh', Nat.not_lt.mpr hbits,
            Nat.mod_lt i (show 0 < 32 by omega), BitVec.getLsbD_eq_getElem,
            show i % 32 - n.toNat % 32 < 32 by omega]
        · simp [hq, hr, hi, hle, Nat.not_lt.mpr hbits,
            Nat.mod_lt i (show 0 < 32 by omega), BitVec.getLsbD_eq_getElem,
            show i % 32 - n.toNat % 32 < 32 by omega]
      · have hq : (i - n.toNat) / 32 = i / 32 - n.toNat / 32 - 1 := by omega
        have hr : (i - n.toNat) % 32 = 32 - n.toNat % 32 + i % 32 := by omega
        have hlow : i % 32 < n.toNat % 32 := by omega
        rw [if_pos (by omega)]
        simp [hq, hr, hi, hle, hlow]
    · simp only [hle, and_false, decide_false, Bool.false_and]
      by_cases hwords : n.toNat / 32 ≤ i / 32
      · have hlow : i % 32 < n.toNat % 32 := by omega
        rw [if_pos hwords, if_neg (by omega)]
        simp [hlow]
      · rw [if_neg hwords]
        simp
  · rw [bit_of_ge _ (by omega)]
    simp [hi]

private theorem word_shiftRight (a : U128) (n : BitVec 32) {i : Nat}
    (hi : i < 4) :
    (a.shiftRight n).word i =
      if i < 4 - n.toNat / 32 then
        if n.toNat % 32 ≠ 0 ∧ i < 4 - n.toNat / 32 - 1 then
          a.word (i + n.toNat / 32) >>> (n.toNat % 32) |||
            a.word (i + n.toNat / 32 + 1) <<< (32 - n.toNat % 32)
        else a.word (i + n.toNat / 32) >>> (n.toNat % 32)
      else 0 := by
  unfold shiftRight
  generalize n.toNat % 32 = bits
  by_cases hwords : n.toNat / 32 < 4
  · interval_cases n.toNat / 32 <;> interval_cases i <;>
      simp [shiftRightWord, setWord, word]
  · generalize n.toNat / 32 = words at hwords
    have hnone : 4 - words = 0 := by omega
    simp only [List.foldl_cons, List.foldl_nil, shiftRightWord, hnone,
      Nat.not_lt_zero, if_false]
    interval_cases i <;> rfl

theorem bit_shiftRight (a : U128) (n : BitVec 32) (i : Nat) :
    (a.shiftRight n).bit i = a.bit (i + n.toNat) := by
  by_cases hi : i < 128
  · rw [bit, word_shiftRight a n (show i / 32 < 4 by omega)]
    by_cases hin : i + n.toNat < 128
    · rw [if_pos (show i / 32 < 4 - n.toNat / 32 by omega), bit]
      by_cases hbits : i % 32 + n.toNat % 32 < 32
      · have hq : (i + n.toNat) / 32 = i / 32 + n.toNat / 32 := by omega
        have hr : (i + n.toNat) % 32 = n.toNat % 32 + i % 32 := by omega
        split
        · have hlow : i % 32 < 32 - n.toNat % 32 := by omega
          simp [hq, hr, hlow]
        · simp [hq, hr]
      · have hq : (i + n.toNat) / 32 = i / 32 + n.toNat / 32 + 1 := by omega
        have hr : (i + n.toNat) % 32 = i % 32 - (32 - n.toNat % 32) := by
          omega
        rw [if_pos (by omega)]
        have hout : (a.word (i / 32 + n.toNat / 32)).getLsbD
            (n.toNat % 32 + i % 32) = false :=
          BitVec.getLsbD_of_ge _ _ (by omega)
        simp [hq, hr, hout, Nat.not_lt.mpr (show 32 - n.toNat % 32 ≤ i % 32 by omega),
          Nat.mod_lt i (show 0 < 32 by omega), BitVec.getLsbD_eq_getElem,
          show i % 32 - (32 - n.toNat % 32) < 32 by omega]
    · rw [bit_of_ge a (by omega)]
      by_cases hwords : i / 32 < 4 - n.toNat / 32
      · have hout : (a.word (i / 32 + n.toNat / 32)).getLsbD
            (n.toNat % 32 + i % 32) = false :=
          BitVec.getLsbD_of_ge _ _ (by omega)
        rw [if_pos hwords, if_neg (by omega)]
        simp [hout]
      · rw [if_neg hwords]
        simp
  · rw [bit_of_ge _ (by omega), bit_of_ge _ (by omega)]

theorem toNat_shiftRight (a : U128) (n : BitVec 32) :
    (a.shiftRight n).toNat = a.toNat >>> n.toNat := by
  apply Nat.eq_of_testBit_eq
  intro i
  rw [testBit_toNat, bit_shiftRight, Nat.testBit_shiftRight, testBit_toNat,
    Nat.add_comm]

theorem isZero_iff (a : U128) : a.isZero = true ↔ a.toNat = 0 := by
  simp only [isZero, List.all_cons, List.all_nil, word, toNat,
    Bool.and_true, Bool.and_eq_true, beq_iff_eq, ← BitVec.toNat_inj,
    BitVec.ofNat_eq_ofNat, BitVec.toNat_ofNat]
  omega

theorem is32_iff (a : U128) : a.is32 = true ↔ a.toNat < 2 ^ 32 := by
  have h0 := a.v0.isLt
  simp only [is32, toNat, Bool.and_eq_true, beq_iff_eq, ← BitVec.toNat_inj,
    BitVec.ofNat_eq_ofNat, BitVec.toNat_ofNat]
  omega

theorem toNat_of_is32 {a : U128} (h : a.is32 = true) : a.toNat = a.v0.toNat := by
  have h0 := a.v0.isLt
  simp only [is32, Bool.and_eq_true, beq_iff_eq] at h
  simp [toNat, h]

/-- The other three words are left as they are. -/
theorem even_of_isZero_and32 {a : U128} (h : (a.and32 1).isZero = true) :
    a.toNat % 2 = 0 := by
  rw [isZero_iff] at h
  have hlow : (a.v0 &&& 1).toNat = 0 := by
    simp only [and32, toNat] at h
    omega
  have hbit : a.v0.toNat % 2 = 0 := by
    rw [BitVec.toNat_and] at hlow
    rwa [← Nat.and_one_is_mod]
  simp only [toNat]
  omega

/-- Some word decides, though not the most significant one. -/
theorem exists_word_of_cmp {a b : U128} :
    (a.cmp b < 0 → ∃ i, a.word i < b.word i) ∧
      (0 < a.cmp b → ∃ i, b.word i < a.word i) := by
  unfold cmp
  split
  · rename_i i hi
    have hne := List.find?_some hi
    rw [bne_iff_ne] at hne
    split
    · rename_i hlt
      exact ⟨fun _ => ⟨i, hlt⟩, fun h => absurd h (by decide)⟩
    · rename_i hlt
      exact ⟨fun h => absurd h (by decide), fun _ => ⟨i,
        BitVec.lt_of_le_ne (BitVec.not_lt.mp hlt) hne.symm⟩⟩
  · exact ⟨fun h => absurd h (by decide), fun h => absurd h (by decide)⟩

theorem cmp_eq_zero_iff (a b : U128) : a.cmp b = 0 ↔ a = b := by
  unfold cmp
  split
  · rename_i i hfound
    have hne := List.find?_some hfound
    constructor
    · intro h
      split at h <;> omega
    · rintro rfl
      simp at hne
  · rename_i hnone
    simp only [List.find?_eq_none, bne_iff_ne, not_not] at hnone
    simp only [true_iff]
    obtain ⟨a0, a1, a2, a3⟩ := a
    obtain ⟨b0, b1, b2, b3⟩ := b
    have h0 := hnone 0 (by simp)
    have h1 := hnone 1 (by simp)
    have h2 := hnone 2 (by simp)
    have h3 := hnone 3 (by simp)
    simp only [word] at h0 h1 h2 h3
    simp [h0, h1, h2, h3]

end U128
