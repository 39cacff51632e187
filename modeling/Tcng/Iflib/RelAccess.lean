import Tcng.Lib.MaskShift
import Tcng.OpData
import Tcng.Spans

/-! Tests are brought to the form `X & mask rel constant` (`rel_access` of
`iflib_arith.c`). -/

namespace Tcng

open ShortCircuit

/-- What the loop of `rel_access` has collected. -/
structure Access where
  mask : U128
  cShift : BitVec 32
  x : Data

def accessLoop (mask : U128) (cShift : BitVec 32) : Data → Access
  | .op .and t p q z =>
      if p.isConstant then accessLoop (mask.and p.convertIpv6) cShift q
      else if q.isConstant then accessLoop (mask.and q.convertIpv6) cShift p
      else ⟨mask, cShift, .op .and t p q z⟩
  | .op .shiftLeft t p (.unum n) z =>
      if (mask.shiftRight n).isZero then
        ⟨mask.shiftRight n, cShift - n, .op .shiftLeft t p (.unum n) z⟩
      else accessLoop (mask.shiftRight n) (cShift - n) p
  | .op .shiftRight t p (.unum n) z =>
      if (mask.shiftLeft n).isZero then
        ⟨mask.shiftLeft n, cShift + n, .op .shiftRight t p (.unum n) z⟩
      else accessLoop (mask.shiftLeft n) (cShift + n) p
  | d => ⟨mask, cShift, d⟩

/-- The size of the access the loop ended at, zero if there is none. -/
def accessBits : Data → BitVec 32
  | .op .access _ _ _ c => if c.isOp then 0 else c.unumValue
  | _ => 0

/-- `(1 << n) - 1` -/
def lowMask (n : BitVec 32) : U128 := ((U128.ofBitVec32 1).shiftLeft n).sub32 1

/-- What becomes of a test when its constant is moved. -/
inductive Moved
  | done (d : Data)
  | test (dsc : OpDsc) (c : U128)

/-- Bits of the constant that are shifted in on the right are not zero. -/
def moveLost (dsc : OpDsc) (c : U128) : Moved :=
  match dsc with
  | .eq => .done (.unum 0)
  | .ne => .done (.unum 1)
  | .lt => .test .le c
  | .gt => .test .gt (c.add32 1)
  | .ge => .test .gt c
  | dsc => .test dsc c

def moveConstant (dsc : OpDsc) (c : U128) (cShift : BitVec 32) :
    Except Error Moved :=
  if (0 : BitVec 32).slt cShift then
    if ((128 : BitVec 32).sle cShift ∧ c.isZero = false) ∨
        (c.shiftRight (128 - cShift)).isZero = false then do
      let d ← relData dsc (.unum 0) (.unum 1)
      return .done d
    else .ok (.test dsc (c.shiftLeft cShift))
  else if cShift.slt 0 then
    if (c.and (lowMask (-cShift))).isZero = false then
      .ok (moveLost dsc (c.shiftRight (-cShift)))
    else .ok (.test dsc (c.shiftRight (-cShift)))
  else .ok (.test dsc c)

/-- A constant of type `dt_unum` if 32 bits are enough. -/
def narrow (c : U128) : Data := if c.is32 then .unum c.v0 else .ipv6 c

/-- The end of `rel_access`. -/
def maskedTest (dsc : OpDsc) (x : Data) (mask c : U128) :
    Except Error Data :=
  if mask.cmp c < 0 then relData dsc (.unum 0) (.unum 1)
  else if (mask.or c).isZero then relData dsc (.unum 0) (.unum 0)
  else if (c.and mask.not).isZero = false ∧ (dsc = .eq ∨ dsc = .ne) then
    .ok (boolUnum (dsc = .ne))
  else do
    let a ← unum2Data .and x (narrow mask)
    relData dsc a (narrow c)

namespace Access

/-- There are no more bits than the access has. -/
def sizedMask (access : Access) : U128 :=
  let bits := accessBits access.x
  if bits = 0 then access.mask else access.mask.and (lowMask bits)

def finish (access : Access) : Moved → Except Error Data
  | .done d => .ok d
  | .test dsc c => maskedTest dsc access.x access.sizedMask c

end Access

/-- `rel_access` on a test. -/
def relAccessTest (dsc : OpDsc) (a b : Data) : Except Error Data :=
  if b.isConstant = false then
    .error (.dumpFailed "\"rel const\" expected")
  else do
    let access := accessLoop .ones 0 a
    let moved ← moveConstant dsc b.convertIpv6 access.cShift
    access.finish moved

/-- The operators `rel_access` looks below. -/
def OpDsc.joins : OpDsc → Bool
  | .logicalOr | .logicalAnd | .logicalNot | .offset | .precond => true
  | _ => false

def relAccess : Data → Except Error Data
  | .op dsc t a b c =>
      if dsc.joins then do
        let a ← relAccess a
        let b ← relAccess b
        return .op dsc t a b c
      else if dsc = .conform ∨ dsc = .count then .ok (.op dsc t a b c)
      else if dsc.relational then relAccessTest dsc a b
      else do
        -- anything else is compared with zero
        let d ← relData .ne (.op dsc t a b c) (.unum 0)
        match d with
        | .op dsc _ a b _ => relAccessTest dsc a b
        | d => .ok d
  | d => .ok d

/-! ## Masks and shifts -/

/-- A constant mask, on either side, or a constant shift. -/
inductive AccessStep
  | mask (t : DataType) (left : Bool) (m : Data) (hm : m.isConstant = true)
  | shiftLeft (t : DataType) (n : BitVec 32)
  | shiftRight (t : DataType) (n : BitVec 32)

namespace AccessStep

def apply : AccessStep → Data → Data
  | mask t left m _, y =>
      if left then .op .and t m y .none else .op .and t y m .none
  | shiftLeft t n, y => .op .shiftLeft t y (.unum n) .none
  | shiftRight t n, y => .op .shiftRight t y (.unum n) .none

def step : AccessStep → MaskShift.Step
  | mask _ _ m _ => .mask m.convertIpv6.toNat
  | shiftLeft _ n => .left n.toNat
  | shiftRight _ n => .right n.toNat

end AccessStep

/-- `y` under masks and shifts, the first one outermost. -/
def under (y : Data) (ss : List AccessStep) : Data :=
  ss.foldr AccessStep.apply y

def accessSteps (ss : List AccessStep) : List MaskShift.Step :=
  ss.map AccessStep.step

/-- The loop goes down to the access, or nothing is left of it. -/
def LoopEnds (y : Data) (m : Nat) (shift : BitVec 32)
    (r : Access) : Prop :=
  r.mask.toNat = m ∧ ((r.x = y ∧ r.cShift = shift) ∨ m = 0)

private theorem isOp_under {y : Data} (hy : y.isOp = true)
    (ss : List AccessStep) : (under y ss).isOp = true := by
  cases ss with
  | nil => exact hy
  | cons s ss =>
      rw [under, List.foldr_cons]
      cases s with
      | mask t left m hm => cases left <;> rfl
      | shiftLeft | shiftRight => rfl

private theorem isConstant_of_isOp {d : Data} (h : d.isOp = true) :
    d.isConstant = false := by
  cases d <;> first | rfl | cases h

private theorem add_shift (cShift n : BitVec 32) (r l : Nat) :
    cShift + n + .ofNat 32 r - .ofNat 32 l =
      cShift + .ofNat 32 (n.toNat + r) - .ofNat 32 l := by
  rw [BitVec.ofNat_add, BitVec.ofNat_toNat, BitVec.setWidth_eq]
  grind

private theorem sub_shift (cShift n : BitVec 32) (r l : Nat) :
    cShift - n + .ofNat 32 r - .ofNat 32 l =
      cShift + .ofNat 32 r - .ofNat 32 (n.toNat + l) := by
  rw [BitVec.ofNat_add, BitVec.ofNat_toNat, BitVec.setWidth_eq]
  grind

/-- Nothing is left to go on for. -/
private theorem LoopEnds.zero {y x : Data} {m : U128}
    (hm : m.isZero = true) (ss : List AccessStep) (shift cShift : BitVec 32) :
    LoopEnds y (MaskShift.back 128 (accessSteps ss) m.toNat) shift
      ⟨m, cShift, x⟩ := by
  rw [U128.isZero_iff] at hm
  rw [hm, MaskShift.back_zero]
  exact ⟨hm, .inr rfl⟩

theorem accessLoop_under {t : DataType} {a b c : Data} (ss : List AccessStep)
    (mask : U128) (cShift : BitVec 32) :
    LoopEnds (.op .access t a b c)
      (MaskShift.back 128 (accessSteps ss) mask.toNat)
      (cShift + .ofNat 32 (MaskShift.rights (accessSteps ss)) -
        .ofNat 32 (MaskShift.lefts (accessSteps ss)))
      (accessLoop mask cShift (under (.op .access t a b c) ss)) := by
  induction ss generalizing mask cShift with
  | nil =>
      refine ⟨rfl, .inl ⟨rfl, ?_⟩⟩
      change cShift = cShift + 0 - 0
      bv_omega
  | cons s ss ih =>
      have hback (m : Nat) :
          MaskShift.back 128 (accessSteps (s :: ss)) m =
            MaskShift.back 128 (accessSteps ss) (s.step.back 128 m) := rfl
      have hrights : MaskShift.rights (accessSteps (s :: ss)) =
          s.step.rights + MaskShift.rights (accessSteps ss) := rfl
      have hlefts : MaskShift.lefts (accessSteps (s :: ss)) =
          s.step.lefts + MaskShift.lefts (accessSteps ss) := rfl
      rw [hback, hrights, hlefts]
      have hop := isConstant_of_isOp
        (isOp_under (y := .op .access t a b c) rfl ss)
      cases s with
      | mask t' left m hm =>
          have hand : AccessStep.step (.mask t' left m hm) =
              .mask m.convertIpv6.toNat := rfl
          rw [hand, MaskShift.Step.back, ← U128.toNat_and]
          have hrest := ih (mask.and m.convertIpv6) cShift
          simp only [MaskShift.Step.rights, MaskShift.Step.lefts,
            Nat.zero_add]
          cases left with
          | true =>
              have hloop : accessLoop mask cShift
                  (under (.op .access t a b c) (.mask t' true m hm :: ss)) =
                  accessLoop (mask.and m.convertIpv6) cShift
                    (under (.op .access t a b c) ss) := by
                simp only [under, List.foldr_cons, AccessStep.apply, if_true,
                  accessLoop, hm]
              rw [hloop]
              exact hrest
          | false =>
              have hloop : accessLoop mask cShift
                  (under (.op .access t a b c) (.mask t' false m hm :: ss)) =
                  accessLoop (mask.and m.convertIpv6) cShift
                    (under (.op .access t a b c) ss) := by
                simp only [under] at hop
                simp only [under, List.foldr_cons, AccessStep.apply,
                  Bool.false_eq_true, if_false, accessLoop, hop, hm, if_true]
              rw [hloop]
              exact hrest
      | shiftLeft t' n =>
          have hleft : AccessStep.step (.shiftLeft t' n) = .left n.toNat := rfl
          rw [hleft, MaskShift.Step.back, ← Nat.shiftRight_eq_div_pow,
            ← U128.toNat_shiftRight]
          have hrest := ih (mask.shiftRight n) (cShift - n)
          rw [sub_shift] at hrest
          simp only [MaskShift.Step.rights, MaskShift.Step.lefts,
            Nat.zero_add]
          simp only [under, List.foldr_cons, AccessStep.apply, accessLoop]
          split
          · rename_i hzero
            exact .zero hzero ss _ _
          · exact hrest
      | shiftRight t' n =>
          have hright : AccessStep.step (.shiftRight t' n) =
              .right n.toNat := rfl
          rw [hright, MaskShift.Step.back, ← U128.toNat_shiftLeft]
          have hrest := ih (mask.shiftLeft n) (cShift + n)
          rw [add_shift] at hrest
          simp only [MaskShift.Step.rights, MaskShift.Step.lefts,
            Nat.zero_add]
          simp only [under, List.foldr_cons, AccessStep.apply, accessLoop]
          split
          · rename_i hzero
            exact .zero hzero ss _ _
          · exact hrest

/-! ## Constants -/

theorem relData_unum (dsc : OpDsc) (m n : BitVec 32) :
    relData dsc (.unum m) (.unum n) =
      .ok (boolUnum (relOp dsc m.toNat n.toNat)) := rfl

theorem lowMask_toNat (n : BitVec 32) :
    (lowMask n).toNat = 2 ^ min n.toNat 128 - 1 := by
  have hone : (1 : BitVec 32).toNat = 1 := rfl
  rw [lowMask, U128.sub32_eq, U128.toNat_sub_mod, U128.toNat_shiftLeft,
    U128.toNat_ofBitVec32, hone, Nat.one_mul]
  by_cases hn : n.toNat < 128
  · have hlt : 2 ^ n.toNat < 2 ^ 128 := Nat.pow_lt_pow_right (by decide) hn
    have hpos := Nat.two_pow_pos n.toNat
    rw [Nat.min_eq_left (Nat.le_of_lt hn)]
    omega
  · rw [Nat.min_eq_right (Nat.not_lt.mp hn), Nat.mod_eq_zero_of_dvd
      (Nat.pow_dvd_pow 2 (Nat.not_lt.mp hn))]
    rfl

theorem lost_iff (c : U128) (n : BitVec 32) :
    (c.and (lowMask n)).isZero = false ↔ ¬2 ^ n.toNat ∣ c.toNat := by
  have hc := c.toNat_lt
  rw [← Bool.not_eq_true, U128.isZero_iff, U128.toNat_and, lowMask_toNat,
    Nat.and_two_pow_sub_one_eq_mod, not_congr]
  by_cases hn : n.toNat < 128
  · rw [Nat.min_eq_left (Nat.le_of_lt hn), Nat.dvd_iff_mod_eq_zero]
  · have hpow : 2 ^ 128 ≤ 2 ^ n.toNat :=
      Nat.pow_le_pow_right (by decide) (Nat.not_lt.mp hn)
    rw [Nat.min_eq_right (Nat.not_lt.mp hn), Nat.mod_eq_of_lt hc,
      Nat.dvd_iff_mod_eq_zero, Nat.mod_eq_of_lt (Nat.lt_of_lt_of_le hc hpow)]

/-- All that is known of zero is whether the constant is zero. -/
private theorem relOp_zero {dsc : OpDsc} {m n : Nat} (h : m = 0 ↔ n = 0) :
    relOp dsc 0 m = relOp dsc 0 n := by
  cases dsc <;> simp only [relOp] <;> first
    | rfl
    | (rw [Bool.eq_iff_iff]; simp; omega)

/-- The test is decided, or it has the same result for `w`. -/
def MovedTo (result : Bool) (w : Nat) : Moved → Prop
  | .done d => d = boolUnum result
  | .test dsc c => dsc.relational = true ∧ relOp dsc w c.toNat = result

private theorem moveLost_zero {dsc : OpDsc} (h : dsc.relational = true)
    {c : Nat} (hc : c ≠ 0) (c' : U128) :
    MovedTo (relOp dsc 0 c) 0 (moveLost dsc c') := by
  cases dsc with
  | eq =>
      have hfalse : relOp .eq 0 c = false := beq_false_of_ne hc.symm
      rw [hfalse]
      rfl
  | ne =>
      have htrue : relOp .ne 0 c = true := bne_iff_ne.mpr hc.symm
      rw [htrue]
      rfl
  | gt | ge | lt | le =>
      refine ⟨rfl, ?_⟩
      simp only [relOp, Nat.not_lt_zero, Nat.zero_le, Nat.le_zero, hc,
        Nat.pos_of_ne_zero hc, decide_true, decide_false]
  | _ => cases h

private theorem overflow_ne_zero {c : U128} {cShift : BitVec 32}
    (h : ((128 : BitVec 32).sle cShift ∧ c.isZero = false) ∨
      (c.shiftRight (128 - cShift)).isZero = false) : c.toNat ≠ 0 := by
  rw [← Bool.not_eq_true, U128.isZero_iff, ← Bool.not_eq_true,
    U128.isZero_iff, U128.toNat_shiftRight] at h
  intro hzero
  rw [hzero, Nat.zero_shiftRight] at h
  exact h.elim (fun h => h.2 rfl) fun h => h rfl

private theorem not_wide {cShift : BitVec 32} (h : cShift.toNat < 128) :
    ¬(128 : BitVec 32).sle cShift = true := by
  have hwide : (128 : BitVec 32).toInt = 128 := rfl
  have hcases := BitVec.toInt_eq_toNat_cond cShift
  rw [BitVec.sle_iff_toInt_le]
  split at hcases <;> omega

private theorem toNat_of_slt {cShift : BitVec 32}
    (h : (0 : BitVec 32).slt cShift = true)
    (h' : ¬(128 : BitVec 32).sle cShift = true) :
    0 < cShift.toNat ∧ cShift.toNat < 128 ∧
      (128 - cShift).toNat = 128 - cShift.toNat := by
  rw [BitVec.slt_iff_toInt_lt] at h
  rw [BitVec.sle_iff_toInt_le] at h'
  have hzero : (0 : BitVec 32).toInt = 0 := rfl
  have hwide : (128 : BitVec 32).toInt = 128 := rfl
  have hcases := BitVec.toInt_eq_toNat_cond cShift
  have hlt := cShift.isLt
  have hbound : 0 < cShift.toNat ∧ cShift.toNat < 128 := by
    split at hcases <;> omega
  refine ⟨hbound.1, hbound.2, ?_⟩
  rw [BitVec.toNat_sub, show (128 : BitVec 32).toNat = 128 from rfl]
  omega

/-- Nothing is shifted out. -/
theorem mul_two_pow_lt {w x n : Nat} (hx : x < 2 ^ w) (hwide : w ≤ n → x = 0)
    (hlost : 0 < n → n < w → x / 2 ^ (w - n) = 0) : x * 2 ^ n < 2 ^ w := by
  by_cases hn : w ≤ n
  · rw [hwide hn, Nat.zero_mul]
    exact Nat.two_pow_pos w
  rw [Nat.not_le] at hn
  obtain rfl | hpos := Nat.eq_zero_or_pos n
  · rwa [Nat.pow_zero, Nat.mul_one]
  · have hlt := hlost hpos hn
    rw [Nat.div_eq_zero_iff_lt (Nat.two_pow_pos _)] at hlt
    calc x * 2 ^ n < 2 ^ (w - n) * 2 ^ n :=
          Nat.mul_lt_mul_of_pos_right hlt (Nat.two_pow_pos n)
      _ = 2 ^ w := by rw [← Nat.pow_add, Nat.sub_add_cancel (Nat.le_of_lt hn)]

/-- The constant still fits. -/
private theorem shiftLeft_fits {c : U128} {cShift : BitVec 32}
    (hshift : (0 : BitVec 32).slt cShift = true)
    (h : ¬(((128 : BitVec 32).sle cShift ∧ c.isZero = false) ∨
      (c.shiftRight (128 - cShift)).isZero = false)) :
    (c.shiftLeft cShift).toNat = c.toNat * 2 ^ cShift.toNat := by
  simp only [not_or, not_and, Bool.not_eq_false, U128.isZero_iff,
    U128.toNat_shiftRight] at h
  rw [U128.toNat_shiftLeft]
  refine Nat.mod_eq_of_lt (mul_two_pow_lt c.toNat_lt (fun hn => ?_)
    fun _ hn => ?_)
  · apply h.1
    by_contra hwide
    obtain ⟨-, hlt, -⟩ := toNat_of_slt hshift hwide
    omega
  · obtain ⟨-, -, hsub⟩ := toNat_of_slt hshift (not_wide hn)
    rw [← hsub, ← Nat.shiftRight_eq_div_pow]
    exact h.2

/-- Where `X` is zero, any shift is right. -/
theorem moveConstant_zero {dsc : OpDsc} (h : dsc.relational = true)
    (c : U128) (cShift : BitVec 32) :
    ∃ m, moveConstant dsc c cShift = .ok m ∧
      MovedTo (relOp dsc 0 c.toNat) 0 m := by
  unfold moveConstant
  split
  · rename_i hshift
    split
    · rename_i hover
      refine ⟨_, rfl, congrArg boolUnum (relOp_zero ?_)⟩
      exact iff_of_false (by decide) (overflow_ne_zero hover)
    · rename_i hfits
      refine ⟨_, rfl, h, relOp_zero ?_⟩
      rw [shiftLeft_fits hshift hfits, Nat.mul_eq_zero,
        or_iff_left (Nat.two_pow_pos _).ne']
  split
  · split
    · rename_i hlost
      rw [lost_iff] at hlost
      have hne : c.toNat ≠ 0 := fun hzero => by
        rw [hzero] at hlost
        exact hlost (Nat.dvd_zero _)
      exact ⟨_, rfl, moveLost_zero h hne _⟩
    · rename_i hlost
      rw [lost_iff, not_not] at hlost
      refine ⟨_, rfl, h, relOp_zero ?_⟩
      rw [U128.toNat_shiftRight, Nat.shiftRight_eq_div_pow,
        Nat.div_eq_zero_iff_lt (Nat.two_pow_pos _)]
      constructor
      · exact Nat.eq_zero_of_dvd_of_lt hlost
      · intro hzero
        rw [hzero]
        exact Nat.two_pow_pos _
  · exact ⟨_, rfl, h, rfl⟩

section

variable {r l : Nat}

private theorem shift_right (h : l ≤ r) :
    BitVec.ofNat 32 r - .ofNat 32 l = .ofNat 32 (r - l) := by
  obtain ⟨d, rfl⟩ := Nat.exists_eq_add_of_le h
  rw [BitVec.ofNat_add, Nat.add_sub_cancel_left]
  grind

private theorem shift_left (h : r ≤ l) :
    -(BitVec.ofNat 32 r - .ofNat 32 l) = .ofNat 32 (l - r) := by
  obtain ⟨d, rfl⟩ := Nat.exists_eq_add_of_le h
  rw [BitVec.ofNat_add, Nat.add_sub_cancel_left]
  grind

private theorem slt_small {d : Nat} (h : d < 128) :
    (0 : BitVec 32).slt (.ofNat 32 d) = decide (0 < d) ∧
      (BitVec.ofNat 32 d).slt 0 = false ∧
      (0 : BitVec 32).slt (-.ofNat 32 d) = false ∧
      (-BitVec.ofNat 32 d).slt 0 = decide (0 < d) := by
  revert d
  decide

/-- The constant is multiplied, if it is not too large for that. -/
theorem moveConstant_right (dsc : OpDsc) (c : U128) (hle : l ≤ r)
    (hlt : r < l + 128) :
    (2 ^ 128 ≤ c.toNat * 2 ^ (r - l) ∧
        moveConstant dsc c (.ofNat 32 r - .ofNat 32 l) =
          .ok (.done (boolUnum (relOp dsc 0 1)))) ∨
      ∃ c', moveConstant dsc c (.ofNat 32 r - .ofNat 32 l) =
          .ok (.test dsc c') ∧ c'.toNat = c.toNat * 2 ^ (r - l) := by
  have hd : r - l < 128 := by omega
  obtain ⟨hpos, hneg, -, -⟩ := slt_small hd
  rw [shift_right hle]
  generalize r - l = d at hd hpos hneg
  have hn : (BitVec.ofNat 32 d).toNat = d := by
    rw [BitVec.toNat_ofNat]
    omega
  unfold moveConstant
  rw [hneg, if_neg Bool.false_ne_true]
  split
  · rename_i hshift
    split
    · rename_i hover
      refine .inl ⟨?_, rfl⟩
      by_contra hfits
      rw [Nat.not_le] at hfits
      have hwide := not_wide (hn.trans_lt hd)
      obtain ⟨-, -, hsub⟩ := toNat_of_slt hshift hwide
      obtain hbig | hlarge := hover
      · exact hwide hbig.1
      · rw [← Bool.not_eq_true, U128.isZero_iff, U128.toNat_shiftRight, hsub,
          hn, Nat.shiftRight_eq_div_pow] at hlarge
        apply hlarge
        rw [Nat.div_eq_zero_iff_lt (Nat.two_pow_pos _)]
        apply Nat.lt_of_mul_lt_mul_right (a := 2 ^ d)
        rwa [← Nat.pow_add, Nat.sub_add_cancel (Nat.le_of_lt hd)]
    · rename_i hfits
      refine .inr ⟨_, rfl, ?_⟩
      rw [shiftLeft_fits hshift hfits, hn]
  · rename_i hzero
    rw [hpos, decide_eq_true_iff, Nat.pos_iff_ne_zero, not_not] at hzero
    rw [hzero, Nat.pow_zero, Nat.mul_one]
    exact .inr ⟨c, rfl, rfl⟩

/-- The constant is divided. -/
theorem moveConstant_left (dsc : OpDsc) (c : U128) (hlt : r < l)
    (hle : l < r + 128) :
    ∃ c', c'.toNat = c.toNat / 2 ^ (l - r) ∧
      moveConstant dsc c (.ofNat 32 r - .ofNat 32 l) =
        .ok (if 2 ^ (l - r) ∣ c.toNat then .test dsc c'
          else moveLost dsc c') := by
  have hd : l - r < 128 := by omega
  have hn : (BitVec.ofNat 32 (l - r)).toNat = l - r := by
    rw [BitVec.toNat_ofNat]
    omega
  obtain ⟨-, -, hpos, hneg⟩ := slt_small hd
  have hshift := shift_left (Nat.le_of_lt hlt)
  rw [← hshift, BitVec.neg_neg] at hpos hneg
  refine ⟨c.shiftRight (.ofNat 32 (l - r)), ?_, ?_⟩
  · rw [U128.toNat_shiftRight, Nat.shiftRight_eq_div_pow, hn]
  · unfold moveConstant
    rw [hpos, hneg, hshift, if_neg Bool.false_ne_true,
      if_pos (decide_eq_true (Nat.sub_pos_of_lt hlt))]
    split
    · rename_i hlost
      rw [lost_iff, hn] at hlost
      rw [if_neg hlost]
    · rename_i hlost
      rw [lost_iff, hn, not_not] at hlost
      rw [if_pos hlost]

end

/-! ## Masks -/

/-- A mask below the constant does not have all of its bits. -/
theorem not_subset_of_cmp {mask c : U128} (h : mask.cmp c < 0) :
    c.toNat &&& mask.toNat ≠ c.toNat := by
  intro heq
  rw [← U128.toNat_and] at heq
  have hand := U128.toNat_injective heq
  obtain ⟨i, hlt⟩ := U128.exists_word_of_cmp.1 h
  rw [← hand, U128.word_and, BitVec.lt_def, BitVec.toNat_and] at hlt
  exact absurd hlt (Nat.not_lt.mpr Nat.and_le_right)

private theorem word_zero {a : U128} (h : a.toNat = 0) (i : Nat) :
    a.word i = 0 := by
  have hzero : a = .ofBitVec32 0 := U128.toNat_injective h
  rw [hzero]
  unfold U128.word U128.ofBitVec32
  split <;> rfl

theorem cmp_zero {mask c : U128} (hm : mask.toNat = 0) :
    mask.cmp c < 0 ↔ c.toNat ≠ 0 := by
  constructor
  · intro h hc
    obtain ⟨i, hlt⟩ := U128.exists_word_of_cmp.1 h
    rw [word_zero hc, BitVec.lt_def] at hlt
    exact Nat.not_lt_zero _ hlt
  · intro hc
    rcases Int.lt_trichotomy (mask.cmp c) 0 with hlt | heq | hgt
    · exact hlt
    · rw [U128.cmp_eq_zero_iff] at heq
      exact absurd (heq ▸ hm) hc
    · obtain ⟨i, hlt⟩ := U128.exists_word_of_cmp.2 hgt
      rw [word_zero hm, BitVec.lt_def] at hlt
      exact absurd hlt (Nat.not_lt_zero _)

/-- No bit of the constant is outside the mask. -/
private theorem isZero_and_not {mask c : U128} :
    (c.and mask.not).isZero = true ↔ c.toNat &&& mask.toNat = c.toNat := by
  have hbit (i : Nat) : (c.and mask.not).toNat.testBit i =
      (c.toNat.testBit i && !mask.toNat.testBit i) := by
    rw [U128.testBit_toNat, U128.testBit_toNat, U128.testBit_toNat,
      U128.bit_and]
    by_cases hi : i < 128
    · rw [U128.bit_not mask hi]
    · rw [U128.bit_of_ge c (Nat.not_lt.mp hi), Bool.false_and, Bool.false_and]
  rw [U128.isZero_iff, BitOrder.and_eq_left_iff]
  constructor
  · intro h i hi
    have hzero := hbit i
    rw [h, Nat.zero_testBit, hi, Bool.true_and] at hzero
    rwa [eq_comm, Bool.not_eq_false'] at hzero
  · intro h
    apply Nat.eq_of_testBit_eq
    intro i
    rw [hbit, Nat.zero_testBit]
    cases hc : c.toNat.testBit i with
    | true =>
        rw [h i hc]
        rfl
    | false => rfl

theorem narrow_constant (c : U128) : (narrow c).isConstant = true := by
  unfold narrow
  split <;> rfl

theorem narrow_toNat (c : U128) : (narrow c).convertIpv6.toNat = c.toNat := by
  unfold narrow
  split
  · rename_i h
    rw [Data.convertIpv6, U128.toNat_ofBitVec32, U128.toNat_of_is32 h]
  · rfl

theorem maskedTest_zero {mask : U128} (hm : mask.toNat = 0) (dsc : OpDsc)
    (x : Data) (c : U128) :
    maskedTest dsc x mask c = .ok (boolUnum (relOp dsc 0 c.toNat)) := by
  unfold maskedTest
  split
  · rename_i hc
    rw [cmp_zero hm] at hc
    have hrel : relOp dsc 0 1 = relOp dsc 0 c.toNat :=
      relOp_zero (iff_of_false (by decide) hc)
    rw [← hrel]
    rfl
  · rename_i hc
    rw [cmp_zero hm, not_not] at hc
    have hor : (mask.or c).isZero = true := by
      rw [U128.isZero_iff, U128.toNat_or, hm, hc]
      rfl
    rw [if_pos hor, relData_unum, hc]
    rfl

/-- The result of the test for the masked number `w`, unless the mask is found
to be below the constant. -/
def maskedResult (dsc : OpDsc) (mask c : U128) (w : Nat) : Bool :=
  if dsc.ordering = true ∧ mask.cmp c < 0 then relOp dsc 0 1
  else relOp dsc w c.toNat

private theorem relOp_of_ne {dsc : OpDsc} (h : dsc = .eq ∨ dsc = .ne)
    {m n : Nat} (hne : m ≠ n) : relOp dsc m n = decide (dsc = .ne) := by
  rcases h with rfl | rfl
  · exact beq_false_of_ne hne
  · exact bne_iff_ne.mpr hne

private theorem eq_or_ne_of_not_ordering {dsc : OpDsc}
    (h : dsc.relational = true) (hdsc : ¬dsc.ordering = true) :
    dsc = .eq ∨ dsc = .ne := by
  cases dsc with
  | eq => exact .inl rfl
  | ne => exact .inr rfl
  | gt | ge | lt | le => exact absurd rfl hdsc
  | _ => cases h

/-- Where a number under the mask is the constant, the mask has its bits. -/
theorem masked_ne {mask c v : Nat} (h : c &&& mask ≠ c) :
    v &&& mask ≠ c := by
  rintro rfl
  rw [Nat.and_assoc, Nat.and_self] at h
  exact h rfl

/-- Where nothing is known before, the access is masked. -/
theorem maskedTest_op {dsc : OpDsc} {y : Data} (hop : y.isOp = true)
    (htype : y.type = .unum ∨ y.type = .ipv6) {mask c : U128}
    (hcmp : ¬mask.cmp c < 0) (hor : ¬(mask.or c).isZero = true)
    (hmask : dsc = .eq ∨ dsc = .ne → c.toNat &&& mask.toNat = c.toNat) :
    ∃ t, (t = .unum ∨ t = .ipv6) ∧ maskedTest dsc y mask c =
      .ok (.op dsc .unum (.op .and t y (narrow mask) .none) (narrow c)
        .none) := by
  have hsubset : ¬((c.and mask.not).isZero = false ∧
      (dsc = .eq ∨ dsc = .ne)) := by
    rintro ⟨hzero, hdsc⟩
    rw [isZero_and_not.mpr (hmask hdsc)] at hzero
    cases hzero
  obtain ⟨t, ht, htt⟩ := mixTypes_constant .and htype (narrow_constant mask)
  have hand := unum2Data_op (nofun : OpDsc.and ≠ .mod)
    (integerNumber_of_type htype)
    (integerNumber_of_constant (narrow_constant mask)) hop ht
  have hrel : relData dsc (.op .and t y (narrow mask) .none) (narrow c) =
      .ok (.op dsc .unum (.op .and t y (narrow mask) .none) (narrow c)
        .none) :=
    relData_op (integerNumber_of_type htt)
      (integerNumber_of_constant (narrow_constant c)) rfl
  refine ⟨t, htt, ?_⟩
  rw [maskedTest, if_neg hcmp, if_neg hor, if_neg hsubset, hand]
  exact hrel

/-- A constant, or a test of the masked access; equality then only with
numbers under the mask. -/
theorem maskedTest_cases (dsc : OpDsc) {y : Data} (hop : y.isOp = true)
    (htype : y.type = .unum ∨ y.type = .ipv6) (mask c : U128) :
    (∃ value, maskedTest dsc y mask c = .ok (boolUnum value)) ∨
      (∃ t, (t = .unum ∨ t = .ipv6) ∧ maskedTest dsc y mask c =
        .ok (.op dsc .unum (.op .and t y (narrow mask) .none) (narrow c)
          .none)) ∧ ¬mask.cmp c < 0 ∧ ¬(mask.or c).isZero = true ∧
        (dsc = .eq ∨ dsc = .ne → c.toNat &&& mask.toNat = c.toNat) := by
  by_cases hcmp : mask.cmp c < 0
  · refine .inl ⟨relOp dsc 0 1, ?_⟩
    rw [maskedTest, if_pos hcmp]
    rfl
  by_cases hor : (mask.or c).isZero = true
  · refine .inl ⟨relOp dsc 0 0, ?_⟩
    rw [maskedTest, if_neg hcmp, if_pos hor]
    rfl
  by_cases hmask : (c.and mask.not).isZero = false ∧ (dsc = .eq ∨ dsc = .ne)
  · refine .inl ⟨decide (dsc = .ne), ?_⟩
    rw [maskedTest, if_neg hcmp, if_neg hor, if_pos hmask]
  · have hsubset (h : dsc = .eq ∨ dsc = .ne) :
        c.toNat &&& mask.toNat = c.toNat := by
      rw [← isZero_and_not, ← Bool.not_eq_false]
      exact fun hzero => hmask ⟨hzero, h⟩
    exact .inr ⟨maskedTest_op hop htype hcmp hor hsubset, hcmp, hor, hsubset⟩

theorem maskedTest_spec {dsc : OpDsc} (h : dsc.relational = true) {y : Data}
    (hop : y.isOp = true) (htype : y.type = .unum ∨ y.type = .ipv6)
    (mask c : U128) :
    ∃ e, maskedTest dsc y mask c = .ok e ∧ ∀ env base, e.eval env base =
      .truth (maskedResult dsc mask c
        (y.num env.packet base &&& mask.toNat)) := by
  unfold maskedTest maskedResult
  split
  · rename_i hcmp
    refine ⟨_, relData_unum dsc 0 1, fun env base => ?_⟩
    rw [Data.eval_boolUnum]
    split
    · rfl
    · rename_i hdsc
      have heq := eq_or_ne_of_not_ordering h fun hord => hdsc ⟨hord, hcmp⟩
      rw [relOp_of_ne heq (masked_ne (not_subset_of_cmp hcmp)),
        relOp_of_ne heq (by decide)]
  rename_i hcmp
  have hresult (w : Nat) : (if dsc.ordering = true ∧ mask.cmp c < 0 then
      relOp dsc 0 1 else relOp dsc w c.toNat) = relOp dsc w c.toNat :=
    if_neg fun hbelow => hcmp hbelow.2
  simp only [hresult]
  split
  · rename_i hor
    rw [U128.isZero_iff, U128.toNat_or, Nat.or_eq_zero_iff] at hor
    refine ⟨_, relData_unum dsc 0 0, fun env base => ?_⟩
    rw [Data.eval_boolUnum, hor.1, hor.2, Nat.and_zero]
    rfl
  split
  · rename_i hmask
    refine ⟨_, rfl, fun env base => ?_⟩
    rw [Data.eval_boolUnum, relOp_of_ne hmask.2 (masked_ne ?_)]
    intro hsubset
    rw [isZero_and_not.mpr hsubset] at hmask
    cases hmask.1
  · rename_i hor hmask
    have hsubset (heq : dsc = .eq ∨ dsc = .ne) :
        c.toNat &&& mask.toNat = c.toNat := by
      rw [← isZero_and_not, ← Bool.not_eq_false]
      exact fun hzero => hmask ⟨hzero, heq⟩
    obtain ⟨t, -, htest⟩ := maskedTest_op hop htype hcmp hor hsubset
    rw [maskedTest, if_neg hcmp, if_neg hor, if_neg hmask] at htest
    refine ⟨_, htest, fun env base => ?_⟩
    rw [Data.eval_relational h, ← narrow_toNat c, ← narrow_toNat mask,
      Data.convertIpv6_toNat (narrow_constant c) env.packet base,
      Data.convertIpv6_toNat (narrow_constant mask) env.packet base]
    rfl

end Tcng
