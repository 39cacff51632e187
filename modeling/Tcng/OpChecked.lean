import Tcng.Lib.CArith
import Tcng.OpData

/-! `*`, `/`, `%`, `<<` and `>>` on constants, where an operation on words may
be undefined: a division by zero, or a shift by 32 or more. -/

namespace Tcng

open CArith CArith.Checked

abbrev Checked := CArith.Checked Error

namespace Checked

/-! ## Words -/

/-- `mult_eval`: the test for the range divides. -/
def mult (a b : BitVec 32) : Checked (BitVec 32) := do
  let limit ← word .div 0xffffffff a
  if limit < b then throw (.error "%lu*%lu exceeds 32 bit range")
  else word .mul a b

/-- `div_eval` -/
def div (a b : BitVec 32) : Checked (BitVec 32) := word .div a b

/-- `unum2_op` -/
def mod (a b : BitVec 32) : Checked (BitVec 32) := word .mod a b

/-- The test of `shift_eval` for a word: both of its shifts are reached only
if what stands before them is not enough. -/
def leftOverflows (a b : BitVec 32) : Checked Bool :=
  if 32 ≤ b ∧ a ≠ 0 then pure true
  else if b ≠ 0 then do
    let lost ← word .shr a (32 - b)
    return lost != 0
  else pure false

def shiftLeftWord (a b : BitVec 32) : Checked (BitVec 32) := do
  if ← leftOverflows a b then
    throw (.error "left shift overflows 32 bit range")
  else word .shl a b

def shiftRightWord (a b : BitVec 32) : Checked (BitVec 32) :=
  if 32 ≤ b then pure 0 else word .shr a b

/-! ## 128 bits -/

/-- One round of the loop of `u128_shift_left`. -/
def shiftLeftRound (words bits : Nat) (a : U128) (i : Nat) : Checked U128 :=
  if words ≤ i then do
    let w ← word .shl (a.word (i - words)) (.ofNat 32 bits)
    if bits ≠ 0 ∧ words < i then do
      let low ← word .shr (a.word (i - words - 1)) (.ofNat 32 (32 - bits))
      return a.setWord i (w ||| low)
    else return a.setWord i w
  else return a.setWord i 0

/-- `u128_shift_left` -/
def shiftLeft128 (a : U128) (n : BitVec 32) : Checked U128 :=
  [3, 2, 1, 0].foldlM (shiftLeftRound (n.toNat / 32) (n.toNat % 32)) a

/-- One round of the loop of `u128_shift_right`. -/
def shiftRightRound (words bits : Nat) (a : U128) (i : Nat) : Checked U128 :=
  if i < 4 - words then do
    let w ← word .shr (a.word (i + words)) (.ofNat 32 bits)
    if bits ≠ 0 ∧ i < 4 - words - 1 then do
      let high ← word .shl (a.word (i + words + 1)) (.ofNat 32 (32 - bits))
      return a.setWord i (w ||| high)
    else return a.setWord i w
  else return a.setWord i 0

/-- `u128_shift_right` -/
def shiftRight128 (a : U128) (n : BitVec 32) : Checked U128 :=
  [0, 1, 2, 3].foldlM (shiftRightRound (n.toNat / 32) (n.toNat % 32)) a

/-- The test of `shift_eval` for 128 bits. -/
def leftOverflows128 (a : U128) (b : BitVec 32) : Checked Bool :=
  if 128 ≤ b ∧ a.isZero = false then pure true
  else do
    let lost ← shiftRight128 a (128 - b)
    return !lost.isZero

def shiftLeftWide (a : U128) (b : BitVec 32) : Checked U128 := do
  if ← leftOverflows128 a b then
    throw (.error "left shift overflows 128 bit range")
  else shiftLeft128 a b

/-! ## Operators -/

/-- `shift_eval` on constants: what is shifted keeps its type. -/
def shift (dsc : OpDsc) (a b : Data) : Checked Data :=
  if b.type = .ipv4 ∨ b.type = .ipv6 then
    throw (.typeError2 dsc a.type b.type)
  else
    match a with
    | .ipv6 x =>
        if dsc = .shiftLeft then .ipv6 <$> shiftLeftWide x b.unumValue
        else .ipv6 <$> shiftRight128 x b.unumValue
    | .ipv4 n =>
        if dsc = .shiftLeft then .ipv4 <$> shiftLeftWord n b.unumValue
        else .ipv4 <$> shiftRightWord n b.unumValue
    | .unum n =>
        if dsc = .shiftLeft then .unum <$> shiftLeftWord n b.unumValue
        else .unum <$> shiftRightWord n b.unumValue
    | a => throw (.typeError2 dsc a.type b.type)

/-- `op_binary` on integers; those of `*`, `/` and `%` have type `dt_unum`. -/
def binary (dsc : OpDsc) (a b : Data) : Checked Data :=
  match dsc with
  | .mult => .unum <$> mult a.unumValue b.unumValue
  | .div => .unum <$> div a.unumValue b.unumValue
  | .mod => .unum <$> mod a.unumValue b.unumValue
  | dsc => shift dsc a b

end Checked

namespace Data

/-- The number a constant stands for. -/
def value : Data → Nat
  | unum n | ipv4 n => n.toNat
  | ipv6 n => n.toNat
  | _ => 0

end Data

/-- Constant operands of an operator. -/
inductive Operands : OpDsc → Data → Data → Prop
  | mult (a b : BitVec 32) : Operands .mult (.unum a) (.unum b)
  | div (a b : BitVec 32) : Operands .div (.unum a) (.unum b)
  | mod (a b : BitVec 32) : Operands .mod (.unum a) (.unum b)
  | shift {dsc : OpDsc} (h : dsc = .shiftLeft ∨ dsc = .shiftRight)
      {a b : Data} (ha : integerNumber a = true) (hopa : a.isOp = false)
      (hb : integerNumber b = true) (hopb : b.isOp = false) :
      Operands dsc a b

/-- An error, or the mathematical result in the width of the operand; nothing
is undefined. -/
def CheckedRight (dsc : OpDsc) (a b : Data) : Prop :=
  match (Checked.binary dsc a b).run with
  | none => False
  | some (.error _) => True
  | some (.ok d) => d.isOp = false ∧ d.type = a.type ∧
      d.value = numOp dsc a.width a.value b.value

/-- No operation on words is undefined. -/
def OperandsDefined (dsc : OpDsc) (a b : Data) : Prop :=
  match dsc with
  | .mult => a.value ≠ 0
  | .div | .mod => b.value ≠ 0
  | .shiftLeft =>
      a.type = .ipv6 ∨ b.type ≠ .unum ∨ a.value ≠ 0 ∨ b.value < 32
  | _ => True

namespace Checked

/-! ## Shifts of 128 bits -/

private theorem word_shl {x : BitVec 32} {n : Nat} (h : n < 32) :
    (word .shl x (.ofNat 32 n) : Checked (BitVec 32)) = pure (x <<< n) := by
  have hn : (BitVec.ofNat 32 n).toNat = n := by
    rw [BitVec.toNat_ofNat]
    omega
  apply word_of_some
  rw [unsignedOp, if_pos (by rw [BitVec.lt_def, hn]; exact h),
    BitVec.shiftLeft_eq', hn]

private theorem word_shr {x : BitVec 32} {n : Nat} (h : n < 32) :
    (word .shr x (.ofNat 32 n) : Checked (BitVec 32)) = pure (x >>> n) := by
  have hn : (BitVec.ofNat 32 n).toNat = n := by
    rw [BitVec.toNat_ofNat]
    omega
  apply word_of_some
  rw [unsignedOp, if_pos (by rw [BitVec.lt_def, hn]; exact h),
    BitVec.ushiftRight_eq', hn]

private theorem shiftLeftRound_eq {bits : Nat} (h : bits < 32) (words : Nat)
    (a : U128) (i : Nat) :
    shiftLeftRound words bits a i =
      pure (U128.shiftLeftWord words bits a i) := by
  unfold shiftLeftRound U128.shiftLeftWord
  split
  · rw [word_shl h, pure_bind]
    split
    · rename_i hbits
      rw [word_shr (by omega), pure_bind]
    · rfl
  · rfl

private theorem shiftRightRound_eq {bits : Nat} (h : bits < 32) (words : Nat)
    (a : U128) (i : Nat) :
    shiftRightRound words bits a i =
      pure (U128.shiftRightWord words bits a i) := by
  unfold shiftRightRound U128.shiftRightWord
  split
  · rw [word_shr h, pure_bind]
    split
    · rename_i hbits
      rw [word_shl (by omega), pure_bind]
    · rfl
  · rfl

/-- The words are shifted by the rest modulo 32, and by 32 less that rest if it
is not zero. -/
theorem shiftLeft128_eq (a : U128) (n : BitVec 32) :
    shiftLeft128 a n = pure (a.shiftLeft n) := by
  have hround : shiftLeftRound (n.toNat / 32) (n.toNat % 32) = fun a i =>
      pure (U128.shiftLeftWord (n.toNat / 32) (n.toNat % 32) a i) := by
    funext a i
    exact shiftLeftRound_eq (Nat.mod_lt _ (by decide)) _ a i
  rw [shiftLeft128, hround, List.foldlM_pure]
  rfl

theorem shiftRight128_eq (a : U128) (n : BitVec 32) :
    shiftRight128 a n = pure (a.shiftRight n) := by
  have hround : shiftRightRound (n.toNat / 32) (n.toNat % 32) = fun a i =>
      pure (U128.shiftRightWord (n.toNat / 32) (n.toNat % 32) a i) := by
    funext a i
    exact shiftRightRound_eq (Nat.mod_lt _ (by decide)) _ a i
  rw [shiftRight128, hround, List.foldlM_pure]
  rfl

theorem leftOverflows128_eq (a : U128) (b : BitVec 32) :
    leftOverflows128 a b =
      pure (decide ((128 ≤ b ∧ a.isZero = false) ∨
        (a.shiftRight (128 - b)).isZero = false)) := by
  unfold leftOverflows128
  split
  · rename_i hout
    exact congrArg pure (decide_eq_true (.inl hout)).symm
  · rename_i hin
    rw [shiftRight128_eq, pure_bind]
    apply congrArg pure
    rw [Bool.eq_iff_iff, Bool.not_eq_true', decide_eq_true_iff,
      or_iff_right hin]

/-! ## Words -/

section

variable {a b : BitVec 32}

theorem word_div (hb : b ≠ 0) :
    (word .div a b : Checked (BitVec 32)) = pure (a / b) :=
  word_of_some (if_neg hb)

theorem mult_zero : mult 0 b = undefined := rfl

theorem mult_eq (ha : a ≠ 0) :
    mult a b = if 0xffffffff / a < b then
        throw (.error "%lu*%lu exceeds 32 bit range")
      else pure (a * b) := by
  rw [mult, word_div ha, pure_bind]
  rfl

theorem mod_eq (hb : b ≠ 0) : mod a b = pure (a % b) :=
  word_of_some (if_neg hb)

/-- The word is shifted by 32 less the count, which is not zero. -/
theorem leftOverflows_eq (h : b < 32 ∨ a ≠ 0) :
    leftOverflows a b =
      pure (decide ((32 ≤ b ∧ a ≠ 0) ∨ (b ≠ 0 ∧ a >>> (32 - b) ≠ 0))) := by
  unfold leftOverflows
  split
  · rename_i hout
    exact congrArg pure (decide_eq_true (.inl hout)).symm
  rename_i hin
  split
  · rename_i hne
    have hb : b < 32 := h.elim id fun ha =>
      BitVec.not_le.mp fun hle => hin ⟨hle, ha⟩
    have hcount : 32 - b < 32 := by
      have hpos : b.toNat ≠ 0 := fun hzero => hne (BitVec.eq_of_toNat_eq hzero)
      rw [BitVec.lt_def] at hb ⊢
      rw [BitVec.toNat_sub]
      simp only [BitVec.ofNat_eq_ofNat, BitVec.toNat_ofNat] at hb ⊢
      omega
    have hword : (word .shr a (32 - b) : Checked (BitVec 32)) =
        pure (a >>> (32 - b)) := word_of_some (if_pos hcount)
    rw [hword, pure_bind]
    apply congrArg pure
    rw [Bool.eq_iff_iff, bne_iff_ne, decide_eq_true_iff, or_iff_right hin,
      and_iff_right hne]
  · rename_i hzero
    apply congrArg pure
    rw [eq_comm, decide_eq_false_iff_not, or_iff_right hin]
    exact fun h => hzero h.1

theorem shiftLeftWord_eq (h : b < 32 ∨ a ≠ 0) :
    shiftLeftWord a b =
      if (32 ≤ b ∧ a ≠ 0) ∨ (b ≠ 0 ∧ a >>> (32 - b) ≠ 0) then
        throw (.error "left shift overflows 32 bit range")
      else pure (a <<< b) := by
  rw [shiftLeftWord, leftOverflows_eq h, pure_bind]
  split <;> rename_i hout
  · rw [decide_eq_true_iff] at hout
    rw [if_pos hout]
  · rw [decide_eq_true_iff] at hout
    have hb : b < 32 := h.elim id fun ha =>
      BitVec.not_le.mp fun hle => hout (.inl ⟨hle, ha⟩)
    rw [if_neg hout]
    exact word_of_some (if_pos hb)

/-- Nothing is found to overflow where there is nothing to shift. -/
theorem shiftLeftWord_zero (hb : ¬b < 32) : shiftLeftWord 0 b = undefined := by
  have hshl : (word .shl 0 b : Checked (BitVec 32)) = undefined :=
    word_of_none (if_neg hb)
  have hne : b ≠ 0 := by
    intro hzero
    rw [hzero] at hb
    exact hb (by decide)
  have hfirst : ¬(32 ≤ b ∧ (0 : BitVec 32) ≠ 0) := fun h => h.2 rfl
  rw [shiftLeftWord, leftOverflows, if_neg hfirst, if_pos hne, hshl]
  by_cases hcount : 32 - b < 32
  · have hword : (word .shr 0 (32 - b) : Checked (BitVec 32)) = pure 0 :=
      word_of_some ((if_pos hcount).trans (by simp))
    rw [hword]
    rfl
  · have hword : (word .shr 0 (32 - b) : Checked (BitVec 32)) = undefined :=
      word_of_none (if_neg hcount)
    rw [hword]
    rfl

theorem guarded_shiftRight :
    (if 32 ≤ b then 0 else a >>> b) = a >>> b := by
  split <;> rename_i hb
  · rw [BitVec.le_def] at hb
    rw [BitVec.ushiftRight_eq', eq_comm, ← BitVec.toNat_inj,
      BitVec.toNat_ushiftRight]
    exact Nat.shiftRight_eq_zero _ _ (Nat.lt_of_lt_of_le a.isLt
      (Nat.pow_le_pow_right (by decide) hb))
  · rfl

theorem shiftRightWord_eq : shiftRightWord a b = pure (a >>> b) := by
  rw [← guarded_shiftRight, shiftRightWord]
  split <;> rename_i hb
  · rfl
  · exact word_of_some (if_pos (BitVec.not_le.mp hb))

theorem shiftLeftWide_eq {a : U128} :
    shiftLeftWide a b =
      if (128 ≤ b ∧ a.isZero = false) ∨
          (a.shiftRight (128 - b)).isZero = false then
        throw (.error "left shift overflows 128 bit range")
      else pure (a.shiftLeft b) := by
  rw [shiftLeftWide, leftOverflows128_eq, pure_bind]
  split <;> rename_i hout
  · rw [decide_eq_true_iff] at hout
    rw [if_pos hout]
  · rw [decide_eq_true_iff] at hout
    rw [if_neg hout, shiftLeft128_eq]

end

end Checked

/-! ## Results -/

open Checked

section

variable {dsc : OpDsc} {a b : Data}

private theorem not_right_of_undefined
    (h : Checked.binary dsc a b = undefined) : ¬CheckedRight dsc a b := by
  rw [CheckedRight, h]
  exact id

private theorem right_of_throw {e : Error}
    (h : Checked.binary dsc a b = throw e) : CheckedRight dsc a b := by
  rw [CheckedRight, h]
  trivial

private theorem right_of_pure {d : Data}
    (h : Checked.binary dsc a b = pure d) (hop : d.isOp = false)
    (ht : d.type = a.type)
    (hvalue : d.value = numOp dsc a.width a.value b.value) :
    CheckedRight dsc a b := by
  rw [CheckedRight, h]
  exact ⟨hop, ht, hvalue⟩

/-- Either the message or the result of a check is right. -/
private theorem right_of_ite {p : Prop} [Decidable p] {e : Error} {d : Data}
    (h : Checked.binary dsc a b = if p then throw e else pure d)
    (hop : d.isOp = false) (ht : d.type = a.type)
    (hvalue : d.value = numOp dsc a.width a.value b.value) :
    CheckedRight dsc a b := by
  split at h
  · exact right_of_throw h
  · exact right_of_pure h hop ht hvalue

end

private theorem binary_mult {a b : BitVec 32} (ha : a ≠ 0) :
    Checked.binary .mult (.unum a) (.unum b) =
      if 0xffffffff / a < b then
        throw (.error "%lu*%lu exceeds 32 bit range")
      else pure (.unum (a * b)) := by
  show Data.unum <$> mult a b = _
  rw [mult_eq ha]
  split <;> rfl

private theorem binary_div {a b : BitVec 32} (hb : b ≠ 0) :
    Checked.binary .div (.unum a) (.unum b) = pure (.unum (a / b)) := by
  show Data.unum <$> word .div a b = _
  rw [word_div hb]
  rfl

private theorem binary_mod {a b : BitVec 32} (hb : b ≠ 0) :
    Checked.binary .mod (.unum a) (.unum b) = pure (.unum (a % b)) := by
  show Data.unum <$> mod a b = _
  rw [mod_eq hb]
  rfl

private theorem ne_zero_iff (a : BitVec 32) : a ≠ 0 ↔ a.toNat ≠ 0 := by
  rw [ne_eq, ne_eq, ← BitVec.toNat_inj]
  rfl

private theorem mult_right_iff (a b : BitVec 32) :
    CheckedRight .mult (.unum a) (.unum b) ↔ a.toNat ≠ 0 := by
  rw [← ne_zero_iff]
  by_cases ha : a = 0
  · refine iff_of_false (not_right_of_undefined ?_) fun h => h ha
    rw [ha]
    rfl
  · exact iff_of_true
      (right_of_ite (binary_mult ha) rfl rfl (BitVec.toNat_mul a b)) ha

private theorem div_right_iff (a b : BitVec 32) :
    CheckedRight .div (.unum a) (.unum b) ↔ b.toNat ≠ 0 := by
  rw [← ne_zero_iff]
  by_cases hb : b = 0
  · refine iff_of_false (not_right_of_undefined ?_) fun h => h hb
    rw [hb]
    rfl
  · exact iff_of_true
      (right_of_pure (binary_div hb) rfl rfl (BitVec.toNat_udiv)) hb

private theorem mod_right_iff (a b : BitVec 32) :
    CheckedRight .mod (.unum a) (.unum b) ↔ b.toNat ≠ 0 := by
  rw [← ne_zero_iff]
  by_cases hb : b = 0
  · refine iff_of_false (not_right_of_undefined ?_) fun h => h hb
    rw [hb]
    rfl
  · exact iff_of_true
      (right_of_pure (binary_mod hb) rfl rfl (BitVec.toNat_umod)) hb

/-! Shifts of a word are the same for both of its types. -/

section

variable {n b : BitVec 32}

private theorem toNat_word_shiftLeft :
    (n <<< b).toNat = numOp .shiftLeft 32 n.toNat b.toNat := by
  rw [BitVec.shiftLeft_eq', BitVec.toNat_shiftLeft]
  rfl

private theorem toNat_word_shiftRight :
    (n >>> b).toNat = numOp .shiftRight 32 n.toNat b.toNat := by
  rw [BitVec.ushiftRight_eq', BitVec.toNat_ushiftRight]
  rfl

private theorem lt_32_iff (b : BitVec 32) : b < 32 ↔ b.toNat < 32 := by
  rw [BitVec.lt_def]
  rfl

variable {f : BitVec 32 → Data} (hf : f = .unum ∨ f = .ipv4)
include hf

private theorem binary_shift_word {dsc : OpDsc}
    (hdsc : dsc = .shiftLeft ∨ dsc = .shiftRight) :
    Checked.binary dsc (f n) (.unum b) =
      f <$> if dsc = .shiftLeft then shiftLeftWord n b
        else shiftRightWord n b := by
  rcases hdsc with rfl | rfl <;> rcases hf with rfl | rfl <;> rfl

private theorem binary_shiftLeft_word (h : b < 32 ∨ n ≠ 0) :
    Checked.binary .shiftLeft (f n) (.unum b) =
      if (32 ≤ b ∧ n ≠ 0) ∨ (b ≠ 0 ∧ n >>> (32 - b) ≠ 0) then
        throw (.error "left shift overflows 32 bit range")
      else pure (f (n <<< b)) := by
  rw [binary_shift_word hf (.inl rfl), if_pos rfl, shiftLeftWord_eq h]
  split <;> rfl

private theorem binary_shiftRight_word :
    Checked.binary .shiftRight (f n) (.unum b) = pure (f (n >>> b)) := by
  rw [binary_shift_word hf (.inr rfl), if_neg nofun, shiftRightWord_eq]
  rfl

private theorem shiftLeft_word_right_iff :
    CheckedRight .shiftLeft (f n) (.unum b) ↔ n.toNat ≠ 0 ∨ b.toNat < 32 := by
  rw [← ne_zero_iff, ← lt_32_iff]
  by_cases h : b < 32 ∨ n ≠ 0
  · refine iff_of_true
      (right_of_ite (binary_shiftLeft_word hf h) ?_ ?_ ?_) h.symm
    · rcases hf with rfl | rfl <;> rfl
    · rcases hf with rfl | rfl <;> rfl
    · rcases hf with rfl | rfl <;> exact toNat_word_shiftLeft
  · refine iff_of_false (not_right_of_undefined ?_) fun hdef => h hdef.symm
    rw [not_or, not_not] at h
    rw [binary_shift_word hf (.inl rfl), if_pos rfl, h.2,
      shiftLeftWord_zero h.1]
    rfl

private theorem shiftRight_word_right :
    CheckedRight .shiftRight (f n) (.unum b) := by
  apply right_of_pure (binary_shiftRight_word hf)
  · rcases hf with rfl | rfl <;> rfl
  · rcases hf with rfl | rfl <;> rfl
  · rcases hf with rfl | rfl <;> exact toNat_word_shiftRight

end

private theorem binary_shiftLeft_wide (x : U128) (b : BitVec 32) :
    Checked.binary .shiftLeft (.ipv6 x) (.unum b) =
      if (128 ≤ b ∧ x.isZero = false) ∨
          (x.shiftRight (128 - b)).isZero = false then
        throw (.error "left shift overflows 128 bit range")
      else pure (.ipv6 (x.shiftLeft b)) := by
  show Data.ipv6 <$> shiftLeftWide x b = _
  rw [shiftLeftWide_eq]
  split <;> rfl

private theorem binary_shiftRight_wide (x : U128) (b : BitVec 32) :
    Checked.binary .shiftRight (.ipv6 x) (.unum b) =
      pure (.ipv6 (x.shiftRight b)) := by
  show Data.ipv6 <$> shiftRight128 x b = _
  rw [shiftRight128_eq]
  rfl

private theorem shiftLeft_wide_right (x : U128) (b : BitVec 32) :
    CheckedRight .shiftLeft (.ipv6 x) (.unum b) := by
  apply right_of_ite (binary_shiftLeft_wide x b) rfl rfl
  exact (U128.toNat_shiftLeft x b).trans (by rw [← Nat.shiftLeft_eq]; rfl)

private theorem shiftRight_wide_right (x : U128) (b : BitVec 32) :
    CheckedRight .shiftRight (.ipv6 x) (.unum b) :=
  right_of_pure (binary_shiftRight_wide x b) rfl rfl
    (U128.toNat_shiftRight x b)

/-- The type of the count is checked first. -/
private theorem binary_shift_address {dsc : OpDsc} {a b : Data}
    (hdsc : dsc = .shiftLeft ∨ dsc = .shiftRight)
    (hb : b.type = .ipv4 ∨ b.type = .ipv6) :
    Checked.binary dsc a b = throw (.typeError2 dsc a.type b.type) := by
  have hshift : Checked.binary dsc a b = shift dsc a b := by
    rcases hdsc with rfl | rfl <;> rfl
  rw [hshift]
  exact if_pos hb

/-- Constants have one of three types. -/
private theorem integer_cases {d : Data} (h : integerNumber d = true)
    (hop : d.isOp = false) :
    (∃ n, d = .unum n) ∨ (∃ n, d = .ipv4 n) ∨ ∃ x, d = .ipv6 x := by
  cases d with
  | unum n => exact .inl ⟨n, rfl⟩
  | ipv4 n => exact .inr (.inl ⟨n, rfl⟩)
  | ipv6 x => exact .inr (.inr ⟨x, rfl⟩)
  | op => cases hop
  | _ => cases h

private theorem shiftLeft_right_iff {a b : Data}
    (ha : integerNumber a = true) (hopa : a.isOp = false)
    (hb : integerNumber b = true) (hopb : b.isOp = false) :
    CheckedRight .shiftLeft a b ↔ OperandsDefined .shiftLeft a b := by
  rcases integer_cases hb hopb with ⟨m, rfl⟩ | ⟨m, rfl⟩ | ⟨y, rfl⟩
  · rcases integer_cases ha hopa with ⟨n, rfl⟩ | ⟨n, rfl⟩ | ⟨x, rfl⟩
    · rw [shiftLeft_word_right_iff (.inl rfl)]
      simp [OperandsDefined, Data.type, Data.value]
    · rw [shiftLeft_word_right_iff (.inr rfl)]
      simp [OperandsDefined, Data.type, Data.value]
    · exact iff_of_true (shiftLeft_wide_right x m) (.inl rfl)
  · exact iff_of_true (right_of_throw (binary_shift_address (.inl rfl)
      (.inl rfl))) (.inr (.inl nofun))
  · exact iff_of_true (right_of_throw (binary_shift_address (.inl rfl)
      (.inr rfl))) (.inr (.inl nofun))

private theorem shiftRight_right {a b : Data}
    (ha : integerNumber a = true) (hopa : a.isOp = false)
    (hb : integerNumber b = true) (hopb : b.isOp = false) :
    CheckedRight .shiftRight a b := by
  rcases integer_cases hb hopb with ⟨m, rfl⟩ | ⟨m, rfl⟩ | ⟨y, rfl⟩
  · rcases integer_cases ha hopa with ⟨n, rfl⟩ | ⟨n, rfl⟩ | ⟨x, rfl⟩
    · exact shiftRight_word_right (.inl rfl)
    · exact shiftRight_word_right (.inr rfl)
    · exact shiftRight_wide_right x m
  · exact right_of_throw (binary_shift_address (.inr rfl) (.inl rfl))
  · exact right_of_throw (binary_shift_address (.inr rfl) (.inr rfl))

/-! ## Operators -/

private theorem run_mult {a b : BitVec 32} (ha : a ≠ 0) :
    (Checked.binary .mult (.unum a) (.unum b)).run =
      some (opBinary .mult (.unum a) (.unum b)) := by
  show _ = some ((Op.multEval ⟨false, a⟩ ⟨false, b⟩).map Op.Number.data)
  rw [binary_mult ha, Op.multEval,
    if_neg (show ¬(false = true ∨ false = true) by simp), if_neg ha]
  show _ = some (Except.map _ (if 0xffffffff / a < b then _ else _))
  split <;> rfl

private theorem run_div {a b : BitVec 32} (hb : b ≠ 0) :
    (Checked.binary .div (.unum a) (.unum b)).run =
      some (opBinary .div (.unum a) (.unum b)) := by
  show _ = some ((Op.divEval ⟨false, a⟩ ⟨false, b⟩).map Op.Number.data)
  rw [binary_div hb, Op.divEval, if_neg (by simp), if_neg (by simp),
    if_neg hb]
  rfl

private theorem run_mod {a b : BitVec 32} (hb : b ≠ 0) :
    (Checked.binary .mod (.unum a) (.unum b)).run =
      some (opBinary .mod (.unum a) (.unum b)) := by
  show _ = some ((Op.unum2Eval .mod ⟨false, a⟩ ⟨false, b⟩).map Op.Number.data)
  rw [binary_mod hb, Op.unum2Eval, if_neg (by simp),
    if_neg fun h => hb h.2]
  rfl

private theorem run_shift_address {dsc : OpDsc} {a b : Data}
    (hdsc : dsc = .shiftLeft ∨ dsc = .shiftRight)
    (ha : integerNumber a = true) (hb : b.type = .ipv4 ∨ b.type = .ipv6) :
    (Checked.binary dsc a b).run = some (opBinary dsc a b) := by
  have hint : integerNumber b = true := by
    rcases hb with hb | hb <;> rw [integerNumber, hb] <;> rfl
  have hop : opBinary dsc a b = shiftData dsc a b := by
    rcases hdsc with rfl | rfl <;> rfl
  rw [binary_shift_address hdsc hb, hop]
  unfold shiftData
  rw [if_neg (by simp [ha]), if_neg (by simp [hint]), if_pos hb]
  rfl

private theorem run_shift_word {dsc : OpDsc}
    (hdsc : dsc = .shiftLeft ∨ dsc = .shiftRight) {f : BitVec 32 → Data}
    (hf : f = .unum ∨ f = .ipv4) {n b : BitVec 32}
    (hdef : dsc = .shiftLeft → b < 32 ∨ n ≠ 0) :
    (Checked.binary dsc (f n) (.unum b)).run =
      some (opBinary dsc (f n) (.unum b)) := by
  have hop : opBinary dsc (f n) (.unum b) =
      (Op.shiftEval dsc (f n).number (Op.dataUnum b)).map Op.Number.data := by
    rcases hdsc with rfl | rfl <;> rcases hf with rfl | rfl <;> rfl
  rw [hop, Op.shiftEval, if_neg (show ¬(Op.dataUnum b).ipv4 = true by nofun)]
  rcases hdsc with rfl | rfl
  · rw [if_pos rfl, binary_shiftLeft_word hf (hdef rfl)]
    rcases hf with rfl | rfl
    · show _ = some (Except.map _ (if (32 ≤ b ∧ n ≠ 0) ∨
        (b ≠ 0 ∧ n >>> (32 - b) ≠ 0) then _ else _))
      split <;> rfl
    · show _ = some (Except.map _ (if (32 ≤ b ∧ n ≠ 0) ∨
        (b ≠ 0 ∧ n >>> (32 - b) ≠ 0) then _ else _))
      split <;> rfl
  · rw [if_neg nofun, binary_shiftRight_word hf, guarded_shiftRight]
    rcases hf with rfl | rfl <;> rfl

private theorem run_shift_wide {dsc : OpDsc}
    (hdsc : dsc = .shiftLeft ∨ dsc = .shiftRight) (x : U128)
    (b : BitVec 32) :
    (Checked.binary dsc (.ipv6 x) (.unum b)).run =
      some (opBinary dsc (.ipv6 x) (.unum b)) := by
  rcases hdsc with rfl | rfl
  · rw [binary_shiftLeft_wide]
    show _ = some (if (128 ≤ b ∧ x.isZero = false) ∨
      (x.shiftRight (128 - b)).isZero = false then _ else _)
    split <;> rfl
  · rw [binary_shiftRight_wide]
    rfl

/-- Where nothing is undefined, this is how operators are constructed. -/
theorem binary_run_of_defined {dsc : OpDsc} {a b : Data}
    (h : Operands dsc a b) (hdef : OperandsDefined dsc a b) :
    (Checked.binary dsc a b).run = some (opBinary dsc a b) := by
  cases h with
  | mult a b => exact run_mult ((ne_zero_iff a).mpr hdef)
  | div a b => exact run_div ((ne_zero_iff b).mpr hdef)
  | mod a b => exact run_mod ((ne_zero_iff b).mpr hdef)
  | shift hdsc ha hopa hb hopb =>
      rcases integer_cases hb hopb with ⟨m, rfl⟩ | ⟨m, rfl⟩ | ⟨y, rfl⟩
      · have hword {f : BitVec 32 → Data} {n : BitVec 32}
            (hf : f = .unum ∨ f = .ipv4) (hdef : OperandsDefined dsc (f n)
              (.unum m)) : dsc = .shiftLeft → m < 32 ∨ n ≠ 0 := by
          rintro rfl
          rw [lt_32_iff, ne_zero_iff]
          rcases hf with rfl | rfl <;>
            simpa [OperandsDefined, Data.type, Data.value, or_comm] using hdef
        rcases integer_cases ha hopa with ⟨n, rfl⟩ | ⟨n, rfl⟩ | ⟨x, rfl⟩
        · exact run_shift_word hdsc (.inl rfl) (hword (.inl rfl) hdef)
        · exact run_shift_word hdsc (.inr rfl) (hword (.inr rfl) hdef)
        · exact run_shift_wide hdsc x m
      · exact run_shift_address hdsc ha (.inl rfl)
      · exact run_shift_address hdsc ha (.inr rfl)

/-- The guards are right except for zero: as a first factor, as a divisor, and
as a word that is shifted left by 32 or more. -/
theorem checked_right_iff {dsc : OpDsc} {a b : Data} (h : Operands dsc a b) :
    CheckedRight dsc a b ↔ OperandsDefined dsc a b := by
  cases h with
  | mult a b => exact mult_right_iff a b
  | div a b => exact div_right_iff a b
  | mod a b => exact mod_right_iff a b
  | shift hdsc ha hopa hb hopb =>
      rcases hdsc with rfl | rfl
      · exact shiftLeft_right_iff ha hopa hb hopb
      · exact iff_of_true (shiftRight_right ha hopa hb hopb) trivial

/-- `3 << 4` -/
theorem checked_right_three : CheckedRight .shiftLeft (.unum 3) (.unum 4) :=
  (checked_right_iff (.shift (.inl rfl) rfl rfl rfl rfl)).mpr
    (.inr (.inr (.inl (by decide))))

/-- `0 * 5`: the guard divides by zero. -/
theorem checked_zeroFactor :
    ¬∀ dsc a b, Operands dsc a b → CheckedRight dsc a b :=
  fun h => h .mult (.unum 0) (.unum 5) (.mult 0 5)

end Tcng
