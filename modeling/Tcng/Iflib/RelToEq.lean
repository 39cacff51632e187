import Tcng.Iflib.MulDivModSound
import Tcng.Lib.BitOrder
import Tcng.Spans

/-! Comparisons with powers of two are turned into equality (`rel_to_eq` of
`iflib_arith.c`). -/

namespace Tcng

open ShortCircuit

/-- The search of `log_2_any` for the word that is not zero. -/
def log2Words : List (BitVec 32) → Nat → Option Nat
  | [], _ => none
  | w :: ws, ld =>
      if w = 0 then log2Words ws (ld + 32)
      else match log2 w with
        | none => none
        | some n => if ws.all (· == 0) then some (ld + n) else none

/-- `log_2_any`; -1 is `none`. -/
def log2Any (d : Data) (increment : Bool) : Option Nat :=
  match d with
  | .unum n =>
      let n := if increment then n + 1 else n
      if increment ∧ n = 0 then some 32 else log2 n
  | .ipv6 n =>
      let n := if increment then n.add32 1 else n
      if increment ∧ n.isZero then some 128
      else log2Words [n.v0, n.v1, n.v2, n.v3] 0
  | _ => none

/-- The relation to zero that takes the place of a comparison, and whether it
is the number after the constant that has to be a power of two. -/
def eqTest : OpDsc → Option (OpDsc × Bool)
  | .lt => some (.eq, false)
  | .le => some (.eq, true)
  | .gt => some (.ne, true)
  | .ge => some (.ne, false)
  | _ => none

/-- The mask, from the constant or the number before it. -/
def eqMask (b : Data) (decrement : Bool) : Data :=
  match b with
  | .unum n => .unum (~~~(if decrement then n - 1 else n))
  | .ipv6 n => .ipv6 (if decrement then n.sub32 1 else n).minus
  | d => d

/-- One node of `rel_to_eq`. -/
def relToEqNode (dsc : OpDsc) (t : DataType) (a b c : Data) :
    Except Error Data :=
  if a.isOp ∧ b.isConstant then
    match eqTest dsc with
    | none => .ok (.op dsc t a b c)
    | some (dsc', increment) =>
        match log2Any b increment with
        | none => .ok (.op dsc t a b c)
        | some _ => do
            let a ← unum2Data .and a (eqMask b (!increment))
            return .op dsc' t a (.unum 0) c
  else .ok (.op dsc t a b c)

def relToEq : Data → Except Error Data
  | .op dsc t a b c => do
      let a ← relToEq a
      let b ← relToEq b
      let c ← relToEq c
      relToEqNode dsc t a b c
  | d => .ok d

theorem eqTest_eq_none {dsc : OpDsc} (h : dsc.arithmetic = true) :
    eqTest dsc = none := by
  revert h
  cases dsc <;> decide

theorem relToEqNode_of_eqTest {dsc : OpDsc} (h : eqTest dsc = none)
    (t : DataType) (a b c : Data) :
    relToEqNode dsc t a b c = .ok (.op dsc t a b c) := by
  unfold relToEqNode
  rw [h]
  exact ite_self _

/-- There are no comparisons in an arithmetic expression. -/
theorem relToEq_numeric {d : Data} (h : d.numeric = true) :
    relToEq d = .ok d := by
  induction d with
  | op dsc t a b c iha ihb ihc =>
      simp only [Data.numeric, Bool.and_eq_true] at h
      obtain ⟨hdsc, ⟨ha, hb⟩, hc⟩ := h
      rw [relToEq, iha ha, ihb hb, ihc hc]
      exact relToEqNode_of_eqTest (eqTest_eq_none hdsc) t a b c
  | _ => rfl

/-! ## Powers of two -/

/-- The number in a list of words, the least significant one first. -/
def wordsValue : List (BitVec 32) → Nat
  | [] => 0
  | w :: ws => w.toNat + 2 ^ 32 * wordsValue ws

private theorem wordsValue_eq_zero {ws : List (BitVec 32)} :
    wordsValue ws = 0 ↔ ws.all (· == 0) = true := by
  induction ws with
  | nil => exact iff_of_true rfl rfl
  | cons w ws ih =>
      have hw : w.toNat = 0 ↔ w = 0 := by
        rw [← BitVec.toNat_inj]
        rfl
      rw [wordsValue, List.all_cons, Bool.and_eq_true, ← ih, beq_iff_eq, ← hw]
      omega

/-- The lowest word that is not zero is the only one in a power of two. -/
private theorem lowWord_two_pow {w rest n : Nat} (hw : w < 2 ^ 32)
    (hpos : w ≠ 0) :
    w + 2 ^ 32 * rest = 2 ^ n ↔ w = 2 ^ n ∧ rest = 0 := by
  constructor
  · intro h
    have hn : n < 32 := by
      by_contra hge
      obtain ⟨k, rfl⟩ := Nat.exists_eq_add_of_le (Nat.not_lt.mp hge)
      rw [Nat.pow_add] at h
      omega
    have hpow : 2 ^ n < 2 ^ 32 := Nat.pow_lt_pow_right (by decide) hn
    omega
  · rintro ⟨rfl, rfl⟩
    omega

private theorem log2Words_eq_some {ws : List (BitVec 32)} {ld n : Nat} :
    log2Words ws ld = some n ↔ ld ≤ n ∧ wordsValue ws = 2 ^ (n - ld) := by
  induction ws generalizing ld with
  | nil =>
      have hpos := Nat.two_pow_pos (n - ld)
      simp only [log2Words, wordsValue, reduceCtorEq, false_iff]
      omega
  | cons w ws ih =>
      by_cases hzero : w = 0
      · rw [log2Words, if_pos hzero, ih, wordsValue, hzero]
        constructor
        · rintro ⟨hle, hvalue⟩
          refine ⟨by omega, ?_⟩
          rw [hvalue, show n - ld = n - (ld + 32) + 32 by omega, Nat.pow_add]
          simp only [BitVec.ofNat_eq_ofNat, BitVec.toNat_ofNat]
          omega
        · rintro ⟨hle, hvalue⟩
          simp only [BitVec.ofNat_eq_ofNat, BitVec.toNat_ofNat] at hvalue
          have hge : 32 ≤ n - ld := by
            by_contra hlt
            have hpow : 2 ^ (n - ld) < 2 ^ 32 :=
              Nat.pow_lt_pow_right (by decide) (Nat.not_le.mp hlt)
            have hpos := Nat.two_pow_pos (n - ld)
            omega
          refine ⟨by omega, ?_⟩
          rw [show n - ld = n - (ld + 32) + 32 by omega, Nat.pow_add] at hvalue
          omega
      · have hpos : w.toNat ≠ 0 := fun h => hzero (BitVec.eq_of_toNat_eq h)
        rw [log2Words, if_neg hzero, wordsValue,
          lowWord_two_pow w.isLt hpos, wordsValue_eq_zero]
        cases hlog : log2 w with
        | none =>
            simp only [reduceCtorEq, false_iff]
            rintro ⟨-, hvalue, -⟩
            rw [Arith.log2_eq_some.mpr hvalue] at hlog
            cases hlog
        | some k =>
            have hvalue := Arith.log2_eq_some.mp hlog
            by_cases hrest : ws.all (· == 0) = true
            · simp only [hrest, if_true, Option.some.injEq, hvalue, and_true]
              constructor
              · rintro rfl
                exact ⟨by omega, by rw [Nat.add_sub_cancel_left]⟩
              · rintro ⟨hle, hpow⟩
                have hk := Nat.pow_right_injective (Nat.le_refl 2) hpow
                omega
            · simp only [hrest, Bool.false_eq_true, if_false, reduceCtorEq,
                and_false]

private theorem wordsValue_toNat (x : U128) :
    wordsValue [x.v0, x.v1, x.v2, x.v3] = x.toNat := by
  simp only [wordsValue, U128.toNat]
  omega

/-- A number that rolls over at the width stands for the power itself. -/
private theorem rolledOver {w n k : Nat} (h : n + 1 = 2 ^ w) :
    some w = some k ↔ n + 1 = 2 ^ k := by
  rw [h, Option.some.injEq]
  exact ⟨fun hk => congrArg (2 ^ ·) hk,
    fun hk => Nat.pow_right_injective (Nat.le_refl 2) hk⟩

private theorem log2Any_unum {n : BitVec 32} {increment : Bool} {k : Nat} :
    log2Any (.unum n) increment = some k ↔
      n.toNat + increment.toNat = 2 ^ k := by
  have hn := n.isLt
  cases increment with
  | false =>
      simp only [log2Any, Bool.false_eq_true, false_and, if_false,
        Bool.toNat_false, Nat.add_zero]
      exact Arith.log2_eq_some
  | true =>
      have hnext : (n + 1).toNat = (n.toNat + 1) % 2 ^ 32 :=
        BitVec.toNat_add n 1
      simp only [log2Any, true_and, if_true, Bool.toNat_true]
      split <;> rename_i hzero
      · have hroll : (n + 1).toNat = 0 := by rw [hzero]; rfl
        exact rolledOver (by omega)
      · have hne : (n + 1).toNat ≠ 0 := fun h =>
          hzero (BitVec.eq_of_toNat_eq h)
        rw [Arith.log2_eq_some, hnext, Nat.mod_eq_of_lt (by omega)]

private theorem log2Any_ipv6 {n : U128} {increment : Bool} {k : Nat} :
    log2Any (.ipv6 n) increment = some k ↔
      n.toNat + increment.toNat = 2 ^ k := by
  have hn := n.toNat_lt
  cases increment with
  | false =>
      simp only [log2Any, Bool.false_eq_true, false_and, if_false,
        Bool.toNat_false, Nat.add_zero]
      rw [log2Words_eq_some, wordsValue_toNat, Nat.sub_zero,
        and_iff_right (Nat.zero_le k)]
  | true =>
      have hnext : (n.add32 1).toNat = (n.toNat + 1) % 2 ^ 128 := by
        rw [U128.add32_eq, U128.toNat_add_mod, U128.toNat_ofBitVec32]
        rfl
      simp only [log2Any, true_and, if_true, Bool.toNat_true]
      split <;> rename_i hzero
      · rw [U128.isZero_iff] at hzero
        exact rolledOver (by omega)
      · rw [U128.isZero_iff] at hzero
        rw [log2Words_eq_some, wordsValue_toNat, Nat.sub_zero,
          and_iff_right (Nat.zero_le k), hnext, Nat.mod_eq_of_lt (by omega)]

theorem log2Any_eq_some {d : Data} (h : d.isConstant = true)
    {increment : Bool} {k : Nat} :
    log2Any d increment = some k ↔
      d.convertIpv6.toNat + increment.toNat = 2 ^ k := by
  cases d with
  | unum n =>
      rw [Data.convertIpv6, U128.toNat_ofBitVec32]
      exact log2Any_unum
  | ipv6 n => exact log2Any_ipv6
  | _ => cases h

/-! ## Masks -/

section

variable {k : Nat} {increment : Bool}

/-- The complement of `2 ^ k - 1` in 32 bits. -/
private theorem testBit_narrowMask {n : BitVec 32}
    (h : n.toNat + increment.toNat = 2 ^ k) {i : Nat} (hi : i < 32) :
    (~~~(if !increment then n - 1 else n)).toNat.testBit i =
      decide (k ≤ i) := by
  have hn := n.isLt
  have hlow : (if !increment then n - 1 else n).toNat = 2 ^ k - 1 := by
    cases increment with
    | false =>
        have hpos := Nat.two_pow_pos k
        have hprev : (n - 1).toNat = (2 ^ 32 - 1 + n.toNat) % 2 ^ 32 :=
          BitVec.toNat_sub n 1
        simp only [Bool.not_false, if_true, Bool.toNat_false] at h ⊢
        omega
    | true =>
        simp only [Bool.not_true, Bool.false_eq_true, if_false,
          Bool.toNat_true] at h ⊢
        omega
  rw [BitVec.testBit_toNat, BitVec.getLsbD_not, ← BitVec.testBit_toNat, hlow,
    Nat.testBit_two_pow_sub_one, decide_eq_true hi, Bool.true_and,
    ← decide_not, decide_eq_decide]
  exact Nat.not_lt

private theorem eqMask_wide_toNat {n : U128}
    (h : n.toNat + increment.toNat = 2 ^ k) :
    (if !increment then n.sub32 1 else n).minus.toNat =
      (2 ^ 128 - (2 ^ k - 1)) % 2 ^ 128 := by
  have hn := n.toNat_lt
  rw [U128.toNat_minus_mod]
  cases increment with
  | false =>
      have hpos := Nat.two_pow_pos k
      have hone : (1 : BitVec 32).toNat = 1 := rfl
      simp only [Bool.not_false, if_true, Bool.toNat_false,
        U128.sub32_eq, U128.toNat_sub_mod, U128.toNat_ofBitVec32,
        hone] at h ⊢
      omega
  | true =>
      simp only [Bool.not_true, Bool.false_eq_true, if_false,
        Bool.toNat_true] at h ⊢
      omega

end

/-- The comparison is one with a power of two. -/
private theorem relOp_two_pow {dsc dsc' : OpDsc} {increment : Bool}
    (htest : eqTest dsc = some (dsc', increment)) {c k : Nat}
    (hc : c + increment.toNat = 2 ^ k) (v m : Nat) :
    relOp dsc' m 0 = relOp dsc v c ↔ (m = 0 ↔ v < 2 ^ k) := by
  cases dsc with
  | lt | le =>
      cases htest
      simp only [Bool.toNat_true, Bool.toNat_false] at hc
      rw [Bool.eq_iff_iff]
      simp only [relOp, beq_iff_eq, decide_eq_true_eq]
      omega
  | gt | ge =>
      cases htest
      simp only [Bool.toNat_true, Bool.toNat_false] at hc
      rw [Bool.eq_iff_iff]
      simp only [relOp, bne_iff_ne, decide_eq_true_eq]
      omega
  | _ => cases htest

/-- Nothing is left of the mask after a comparison with the largest word. -/
theorem eqMask_eq_zero {c : Data} (hc : c.isConstant = true)
    (hwide : ∀ n, c = .ipv6 n → 2 ^ 32 ≤ n.toNat) {increment : Bool}
    {k : Nat} (h : c.convertIpv6.toNat + increment.toNat = 2 ^ k) :
    (eqMask c (!increment)).convertIpv6.toNat = 0 ↔
      increment = true ∧ c.convertIpv6.toNat = 2 ^ 32 - 1 := by
  cases c with
  | unum n =>
      rw [Data.convertIpv6, U128.toNat_ofBitVec32] at h
      rw [eqMask, Data.convertIpv6, U128.toNat_ofBitVec32, Data.convertIpv6,
        U128.toNat_ofBitVec32, BitVec.toNat_not]
      have hn := n.isLt
      have hpos := Nat.two_pow_pos k
      cases increment with
      | true =>
          simp only [Bool.not_true, Bool.false_eq_true, if_false, true_and]
          omega
      | false =>
          have hprev : (n - 1).toNat = (2 ^ 32 - 1 + n.toNat) % 2 ^ 32 :=
            BitVec.toNat_sub n 1
          simp only [Bool.not_false, if_true, Bool.toNat_false,
            Bool.false_eq_true, false_and, iff_false] at h ⊢
          omega
  | ipv6 n =>
      have hn := n.toNat_lt
      have hlarge := hwide n rfl
      have hle := Bool.toNat_le increment
      rw [Data.convertIpv6] at h
      rw [eqMask, Data.convertIpv6, eqMask_wide_toNat h, Data.convertIpv6]
      omega
  | _ => cases hc

/-! ## Tests -/

section

variable {x c : Data} {w : Nat} {dsc : OpDsc}

theorem eqMask_constant (h : c.isConstant = true)
    (decrement : Bool) : (eqMask c decrement).isConstant = true := by
  cases c <;> first | rfl | cases h

/-- The test with its constant stays, or a mask is put around `x`. -/
theorem relToEq_test (hx : x.numeric = true) (hop : x.isOp = true)
    (htype : x.type = .unum ∨ x.type = .ipv6) (hc : c.isConstant = true)
    {dsc' : OpDsc} {increment : Bool}
    (htest : eqTest dsc = some (dsc', increment)) :
    (log2Any c increment = none ∧
        relToEq (.op dsc .unum x c .none) = .ok (.op dsc .unum x c .none)) ∨
      ∃ k t, log2Any c increment = some k ∧ (t = .unum ∨ t = .ipv6) ∧
        relToEq (.op dsc .unum x c .none) =
          .ok (.op dsc' .unum (.op .and t x (eqMask c (!increment)) .none)
            (.unum 0) .none) := by
  have hnode : relToEq (.op dsc .unum x c .none) =
      relToEqNode dsc .unum x c .none := by
    rw [relToEq, relToEq_numeric hx,
      relToEq_numeric (Data.isConstant_numeric hc)]
    rfl
  rw [hnode, relToEqNode, if_pos ⟨hop, hc⟩, htest]
  cases hlog : log2Any c increment with
  | none => exact .inl ⟨rfl, by simp only [hlog]⟩
  | some k =>
      have hmask := eqMask_constant hc (!increment)
      obtain ⟨t, ht, htt⟩ := mixTypes_constant .and htype hmask
      refine .inr ⟨k, t, rfl, htt, ?_⟩
      have hand := unum2Data_op (nofun : OpDsc.and ≠ .mod)
        (integerNumber_of_type htype) (integerNumber_of_constant hmask) hop ht
      simp only [hlog, hand]
      rfl

/-- What takes the place of the test has its value on every packet. -/
def RelToEqKeeps (dsc : OpDsc) (x c : Data) : Prop :=
  ∃ d, relToEq (.op dsc .unum x c .none) = .ok d ∧
    ∀ env base, d.eval env base = (Data.op dsc .unum x c .none).eval env base

/-- The number next to the constant that has to be a power of two. -/
def nextToPower (dsc : OpDsc) (c : Data) : Nat :=
  c.convertIpv6.toNat + match dsc with
    | .le | .gt => 1
    | _ => 0

private theorem nextToPower_eq {dsc' : OpDsc} {increment : Bool}
    (htest : eqTest dsc = some (dsc', increment)) (c : Data) :
    nextToPower dsc c = c.convertIpv6.toNat + increment.toNat := by
  cases dsc with
  | lt | le | gt | ge =>
      cases htest
      rfl
  | _ => cases htest

/-- A mask that is put around `x` is right if it tells the numbers below the
power of two from the others. -/
private theorem keeps_iff_mask (hx : Spans x w) (hc : c.isConstant = true)
    {dsc' : OpDsc} {increment : Bool}
    (htest : eqTest dsc = some (dsc', increment)) {k : Nat}
    (hpow : c.convertIpv6.toNat + increment.toNat = 2 ^ k) :
    RelToEqKeeps dsc x c ↔
      ∀ v < 2 ^ w,
        (v &&& (eqMask c (!increment)).convertIpv6.toNat = 0 ↔ v < 2 ^ k) := by
  have hlog := (log2Any_eq_some hc).mpr hpow
  obtain ⟨hnone, -⟩ | ⟨_, t, -, -, hresult⟩ :=
    relToEq_test hx.numeric hx.isOp hx.type hc htest
  · rw [hlog] at hnone
    cases hnone
  have hrel : dsc.relational = true ∧ dsc'.relational = true := by
    cases dsc with
    | lt | le | gt | ge =>
        cases htest
        exact ⟨rfl, rfl⟩
    | _ => cases htest
  rw [← hx.forall_num (P := fun v =>
    v &&& (eqMask c (!increment)).convertIpv6.toNat = 0 ↔ v < 2 ^ k)]
  have hvalue : ∀ env base,
      (Data.op dsc' .unum (.op .and t x (eqMask c (!increment)) .none)
          (.unum 0) .none).eval env base =
        (Data.op dsc .unum x c .none).eval env base ↔
      (x.num env.packet base &&&
        (eqMask c (!increment)).convertIpv6.toNat = 0 ↔
          x.num env.packet base < 2 ^ k) := by
    intro env base
    rw [Data.eval_relational hrel.2, Data.eval_relational hrel.1,
      ← relOp_two_pow htest hpow, Eval.truth_inj,
      Data.convertIpv6_toNat (eqMask_constant hc _) env.packet base,
      Data.convertIpv6_toNat hc env.packet base]
    exact Iff.rfl
  constructor
  · rintro ⟨d, hd, heval⟩ packet base
    rw [hresult] at hd
    cases hd
    exact (hvalue (.steady packet fun _ => false) base).mp (heval _ base)
  · intro hall
    exact ⟨_, hresult, fun env base =>
      (hvalue env base).mpr (hall env.packet base)⟩

/-- The narrow mask is right for 32 bits. -/
private theorem narrow_right {n : BitVec 32} {increment : Bool} {k : Nat}
    (h : n.toNat + increment.toNat = 2 ^ k) {v : Nat} (hv : v < 2 ^ 32) :
    v &&& (eqMask (.unum n) (!increment)).convertIpv6.toNat = 0 ↔
      v < 2 ^ k := by
  rw [eqMask, Data.convertIpv6, U128.toNat_ofBitVec32]
  exact BitOrder.and_eq_zero_iff_lt hv fun i hi => testBit_narrowMask h hi

/-- Of 128 bits it leaves out the upper ones: `2 ^ 32` looks like zero. -/
private theorem narrow_wrong {n : BitVec 32} {increment : Bool} {k : Nat}
    (h : n.toNat + increment.toNat = 2 ^ k) :
    ¬(2 ^ 32 &&& (eqMask (.unum n) (!increment)).convertIpv6.toNat = 0 ↔
      2 ^ 32 < 2 ^ k) := by
  have hzero : 2 ^ 32 &&&
      (eqMask (.unum n) (!increment)).convertIpv6.toNat = 0 := by
    rw [eqMask, Data.convertIpv6, U128.toNat_ofBitVec32,
      BitOrder.and_eq_zero_iff]
    intro i hi
    rw [Nat.testBit_two_pow, decide_eq_true_iff] at hi
    rw [← hi.1, BitVec.testBit_toNat,
      BitVec.getLsbD_of_ge _ _ (Nat.le_refl 32)] at hi
    exact absurd hi.2 (by decide)
  have hn := n.isLt
  have hle := Bool.toNat_le increment
  omega

/-- The wide mask takes the lowest bit in, or nothing at all: 1 is taken for
greater than the constant, or for zero. -/
private theorem wide_wrong {n : U128} {increment : Bool} {k : Nat}
    (h : n.toNat + increment.toNat = 2 ^ k) :
    ¬(1 &&& (eqMask (.ipv6 n) (!increment)).convertIpv6.toNat = 0 ↔
      1 < 2 ^ k) := by
  have hn := n.toNat_lt
  have hle := Bool.toNat_le increment
  rw [eqMask, Data.convertIpv6, eqMask_wide_toNat h, Nat.and_comm,
    Nat.and_one_is_mod]
  cases k with
  | zero => decide
  | succ k =>
      have hpos := Nat.two_pow_pos k
      have hdouble : 2 ^ (k + 1) = 2 * 2 ^ k := by
        rw [Nat.pow_succ, Nat.mul_comm]
      omega

/-- Only masks of 32 bits are right, and only for 32 bits. -/
theorem relToEq_keeps_iff (hx : Spans x w) (hw : w = 32 ∨ w = 128)
    (hdsc : (eqTest dsc).isSome = true) (hc : c.isConstant = true) :
    RelToEqKeeps dsc x c ↔
      (∀ k, nextToPower dsc c ≠ 2 ^ k) ∨ (c.type = .unum ∧ w = 32) := by
  obtain ⟨⟨dsc', increment⟩, htest⟩ := Option.isSome_iff_exists.mp hdsc
  rw [nextToPower_eq htest]
  by_cases hpow : ∃ k, c.convertIpv6.toNat + increment.toNat = 2 ^ k
  · obtain ⟨k, hk⟩ := hpow
    rw [keeps_iff_mask hx hc htest hk,
      or_iff_right fun hnone => hnone k hk]
    cases c with
    | unum n =>
        rw [Data.convertIpv6, U128.toNat_ofBitVec32] at hk
        rcases hw with rfl | rfl
        · exact iff_of_true (fun v hv => narrow_right hk hv) ⟨rfl, rfl⟩
        · refine iff_of_false (fun hall => ?_) fun h => nomatch h.2
          exact narrow_wrong hk (hall (2 ^ 32) (by decide))
    | ipv6 n =>
        refine iff_of_false (fun hall => ?_) fun h => nomatch h.1
        refine wide_wrong hk (hall 1 ?_)
        rcases hw with rfl | rfl <;> decide
    | _ => cases hc
  · refine iff_of_true ?_ (.inl fun k hk => hpow ⟨k, hk⟩)
    rcases relToEq_test hx.numeric hx.isOp hx.type hc htest with
      ⟨-, hsame⟩ | ⟨k, _, hlog, -⟩
    · exact ⟨_, hsame, fun _ _ => rfl⟩
    · exact absurd ⟨k, (log2Any_eq_some hc).mp hlog⟩ hpow

/-- A word below 16. -/
theorem relToEq_keeps_nibble :
    RelToEqKeeps .lt (packetAccess .unum 0 0 32) (.unum 16) :=
  (relToEq_keeps_iff (spans_packetAccess (.inl rfl) 0 0 32) (.inl rfl) rfl
    rfl).mpr (.inr ⟨rfl, rfl⟩)

/-- `X < 2 ^ 64`: the complement is off by one. -/
theorem relToEq_wideMask :
    ¬∀ dsc x c w, Spans x w → w = 32 ∨ w = 128 →
      (eqTest dsc).isSome = true → c.isConstant = true →
      RelToEqKeeps dsc x c := by
  intro h
  have hspans := spans_packetAccess (t := .ipv6) (.inr rfl) 0 0 128
  have hkeeps := h .lt (packetAccess .ipv6 0 0 128) (.ipv6 ⟨0, 0, 1, 0⟩) 128
    hspans (.inr rfl) rfl rfl
  rw [keeps_iff_mask (k := 64) hspans rfl rfl rfl] at hkeeps
  have hpow : (⟨0, 0, 1, 0⟩ : U128).toNat + Bool.toNat false = 2 ^ 64 := rfl
  exact wide_wrong hpow (hkeeps 1 (by decide))

end

end Tcng
