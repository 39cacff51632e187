import Tcng.Formula
import Tcng.Iflib.RelAccess

/-! `rel_access` keeps the value of tests, with two exceptions. -/

namespace Tcng

open ShortCircuit

/-! ## Values -/

/-- What is read, as a constant of the type of the access. -/
def accessValue (t : DataType) (n : Nat) : Data :=
  if t = .ipv6 then .ipv6 (.ofNat n) else .unum (.ofNat 32 n)

/-- `op_binary` on the values of the operands. -/
def evaluateAccess (packet : Packet) (base : Base) :
    Data → Except Error Data
  | .op .access t a b c =>
      .ok (accessValue t ((Data.op .access t a b c).num packet base))
  | .op dsc _ a b _ => do
      let x ← evaluateAccess packet base a
      let y ← evaluateAccess packet base b
      opBinary dsc x y
  | d => .ok d

/-- Accesses of 8, 16, 32 and 128 bits with their types. -/
inductive AccessOf : BitVec 32 → Data → Prop
  | word {a b : Data} {size : BitVec 32} (ha : a.numeric = true)
      (hb : b.numeric = true) (h : size = 8 ∨ size = 16 ∨ size = 32) :
      AccessOf size (.op .access .unum a b (.unum size))
  | wide {a b : Data} (ha : a.numeric = true) (hb : b.numeric = true) :
      AccessOf 128 (.op .access .ipv6 a b (.unum 128))

/-- An access of any number of bits, up to 128. -/
inductive SizedAccess : BitVec 32 → Data → Prop
  | intro {t : DataType} {a b : Data} {size : BitVec 32}
      (ht : t = .unum ∨ t = .ipv6) (ha : a.numeric = true)
      (hb : b.numeric = true) (hne : size ≠ 0) (hle : size.toNat ≤ 128) :
      SizedAccess size (.op .access t a b (.unum size))

theorem AccessOf.sized {size : BitVec 32} {y : Data} (h : AccessOf size y) :
    SizedAccess size y := by
  cases h with
  | word ha hb hsize =>
      obtain rfl | rfl | rfl := hsize
      · exact .intro (.inl rfl) ha hb (by decide) (by decide)
      · exact .intro (.inl rfl) ha hb (by decide) (by decide)
      · exact .intro (.inl rfl) ha hb (by decide) (by decide)
  | wide ha hb => exact .intro (.inr rfl) ha hb (by decide) (by decide)

/-- A constant with the number and the width of the expression. -/
inductive Worth (packet : Packet) (base : Base) (d : Data) : Data → Prop
  | narrow {n : BitVec 32} (hwidth : d.width = 32)
      (hnum : d.num packet base = n.toNat) : Worth packet base d (.unum n)
  | wide {n : U128} (hwidth : d.width = 128)
      (hnum : d.num packet base = n.toNat) : Worth packet base d (.ipv6 n)

section

variable {packet : Packet} {base : Base}

private theorem Worth.lt {d e : Data} (h : Worth packet base d e) :
    d.num packet base < 2 ^ 128 := by
  cases h with
  | narrow _ hnum =>
      rw [hnum]
      exact Nat.lt_of_lt_of_le (BitVec.isLt _) (by decide)
  | wide _ hnum =>
      rw [hnum]
      exact U128.toNat_lt _

private theorem worth_access (packet : Packet) (base : Base)
    {size : BitVec 32} {y : Data} (h : AccessOf size y) :
    ∃ e, evaluateAccess packet base y = .ok e ∧ Worth packet base y e := by
  cases h with
  | @word a b _ ha hb hsize =>
      refine ⟨_, rfl, .narrow ?_ ?_⟩
      · rcases hsize with rfl | rfl | rfl <;> rfl
      · rw [BitVec.toNat_ofNat]
        have hle : size.toNat ≤ 32 := by
          rcases hsize with rfl | rfl | rfl <;> decide
        exact (Nat.mod_eq_of_lt (Nat.lt_of_lt_of_le (readBits_lt _ _ _)
          (Nat.pow_le_pow_right (by decide) hle))).symm
  | @wide a b ha hb =>
      refine ⟨_, rfl, .wide rfl ?_⟩
      rw [U128.toNat_ofNat]
      exact (Nat.mod_eq_of_lt (readBits_lt _ _ _)).symm

private theorem worth_and {d m e x : Data} (hx : Worth packet base d x)
    (hm : m.isConstant = true) (t : DataType)
    (h : unum2Data .and x m = .ok e) :
    Worth packet base (.op .and t d m .none) e := by
  have hnum : (Data.op .and t d m .none).num packet base =
      d.num packet base &&& m.num packet base := rfl
  have hwide : (Data.op .and t d m .none).width = max d.width m.width := rfl
  cases hx with
  | @narrow n hwidth hd =>
      rw [hwidth] at hwide
      rw [hd] at hnum
      cases m with
      | unum k =>
          cases h
          exact .narrow hwide (hnum.trans (BitVec.toNat_and n k).symm)
      | ipv6 k =>
          cases h
          refine .wide hwide (hnum.trans ?_)
          rw [wideOp, U128.toNat_and, U128.toNat_ofBitVec32]
          rfl
      | _ => cases hm
  | @wide n hwidth hd =>
      rw [hwidth] at hwide
      rw [hd] at hnum
      cases m with
      | unum k =>
          cases h
          refine .wide hwide (hnum.trans ?_)
          rw [wideOp, U128.toNat_and, U128.toNat_ofBitVec32]
          rfl
      | ipv6 k =>
          cases h
          exact .wide hwide (hnum.trans (U128.toNat_and n k).symm)
      | _ => cases hm

private theorem unum2Data_comm {x m : Data} (hx : x.isConstant = true)
    (hm : m.isConstant = true) :
    unum2Data .and m x = unum2Data .and x m := by
  have hand (a b : U128) : a.and b = b.and a :=
    U128.ext_bit fun i _ => by rw [U128.bit_and, U128.bit_and, Bool.and_comm]
  cases x with
  | unum n =>
      cases m with
      | unum k =>
          exact congrArg (Except.ok ∘ Data.unum) (BitVec.and_comm k n)
      | ipv6 k => exact congrArg (Except.ok ∘ Data.ipv6) (hand _ _)
      | _ => cases hm
  | ipv6 n =>
      cases m with
      | unum k | ipv6 k => exact congrArg (Except.ok ∘ Data.ipv6) (hand _ _)
      | _ => cases hm
  | _ => cases hx

private theorem Worth.constant {d e : Data} (h : Worth packet base d e) :
    e.isConstant = true := by
  cases h <;> rfl

private theorem Worth.congr {d d' e : Data} (h : Worth packet base d e)
    (hwidth : d'.width = d.width)
    (hnum : d'.num packet base = d.num packet base) :
    Worth packet base d' e := by
  cases h with
  | narrow hw hn => exact .narrow (hwidth.trans hw) (hnum.trans hn)
  | wide hw hn => exact .wide (hwidth.trans hw) (hnum.trans hn)

/-! Nothing is shifted out of a number if there is no error. -/

private theorem shiftLeft_unum {k n : BitVec 32} {e : Data}
    (h : shiftData .shiftLeft (.unum k) (.unum n) = .ok e) :
    e = .unum (k <<< n) ∧ k.toNat * 2 ^ n.toNat < 2 ^ 32 := by
  have heval : shiftData .shiftLeft (.unum k) (.unum n) =
      ((if (32 ≤ n ∧ k ≠ 0) ∨ (n ≠ 0 ∧ k >>> (32 - n) ≠ 0) then
          .error (.error "left shift overflows 32 bit range")
        else .ok ⟨false, k <<< n⟩ : Except Error Op.Number) >>= fun r =>
        return if r.ipv4 then .ipv4 r.unum else .unum r.unum) := rfl
  rw [heval] at h
  obtain ⟨r, hr, hdata⟩ := bind_eq_ok.mp h
  split at hr
  · cases hr
  rename_i hover
  cases hr
  refine ⟨(Except.ok.inj hdata).symm, ?_⟩
  simp only [not_or, not_and, not_not] at hover
  refine mul_two_pow_lt k.isLt (fun hn => ?_) fun hpos hn => ?_
  · exact congrArg BitVec.toNat (hover.1 hn)
  · have hsub : (32 - n).toNat = 32 - n.toNat := by bv_omega
    have hne : n ≠ 0 := by
      rintro rfl
      exact absurd hpos (Nat.lt_irrefl 0)
    have hzero := congrArg BitVec.toNat (hover.2 hne)
    rw [BitVec.ushiftRight_eq', BitVec.toNat_ushiftRight, hsub,
      Nat.shiftRight_eq_div_pow] at hzero
    exact hzero

private theorem shiftLeft_ipv6 {k : U128} {n : BitVec 32} {e : Data}
    (h : shiftData .shiftLeft (.ipv6 k) (.unum n) = .ok e) :
    e = .ipv6 (k.shiftLeft n) ∧ k.toNat * 2 ^ n.toNat < 2 ^ 128 := by
  have heval : shiftData .shiftLeft (.ipv6 k) (.unum n) =
      if (128 ≤ n ∧ k.isZero = false) ∨
          (k.shiftRight (128 - n)).isZero = false then
        .error (.error "left shift overflows 128 bit range")
      else .ok (.ipv6 (k.shiftLeft n)) := rfl
  rw [heval] at h
  split at h
  · cases h
  rename_i hover
  refine ⟨(Except.ok.inj h).symm, ?_⟩
  simp only [not_or, not_and, Bool.not_eq_false, U128.isZero_iff,
    U128.toNat_shiftRight] at hover
  refine mul_two_pow_lt k.toNat_lt hover.1 fun _ hn => ?_
  have hsub : (128 - n).toNat = 128 - n.toNat := by bv_omega
  rw [← hsub, ← Nat.shiftRight_eq_div_pow]
  exact hover.2

private theorem shiftRight_unum {k n : BitVec 32} {e : Data}
    (h : shiftData .shiftRight (.unum k) (.unum n) = .ok e) :
    ∃ r, e = .unum r ∧ r.toNat = k.toNat >>> n.toNat := by
  have heval : shiftData .shiftRight (.unum k) (.unum n) =
      .ok (.unum (if 32 ≤ n then 0 else k >>> n)) := rfl
  rw [heval] at h
  refine ⟨_, (Except.ok.inj h).symm, ?_⟩
  split
  · rename_i hn
    have hlt : k.toNat < 2 ^ n.toNat :=
      Nat.lt_of_lt_of_le k.isLt (Nat.pow_le_pow_right (by decide) hn)
    rw [Nat.shiftRight_eq_div_pow, Nat.div_eq_of_lt hlt]
    rfl
  · rw [BitVec.ushiftRight_eq', BitVec.toNat_ushiftRight]

private theorem worth_shiftLeft {d x e : Data} {n : BitVec 32}
    (hx : Worth packet base d x) (t : DataType)
    (h : shiftData .shiftLeft x (.unum n) = .ok e) :
    Worth packet base (.op .shiftLeft t d (.unum n) .none) e ∧
      (Data.op .shiftLeft t d (.unum n) .none).num packet base =
        d.num packet base * 2 ^ n.toNat := by
  have hwide : (Data.op .shiftLeft t d (.unum n) .none).width = d.width := rfl
  have hnum : (Data.op .shiftLeft t d (.unum n) .none).num packet base =
      (d.num packet base <<< n.toNat) % 2 ^ max d.width 32 := rfl
  cases hx with
  | @narrow k hwidth hd =>
      obtain ⟨rfl, hlt⟩ := shiftLeft_unum h
      rw [hwidth] at hwide hnum
      rw [hd, Nat.max_self, Nat.shiftLeft_eq] at hnum
      refine ⟨.narrow hwide ?_, ?_⟩
      · rw [hnum, BitVec.shiftLeft_eq', BitVec.toNat_shiftLeft,
          Nat.shiftLeft_eq]
      · rw [hnum, hd, Nat.mod_eq_of_lt hlt]
  | @wide k hwidth hd =>
      obtain ⟨rfl, hlt⟩ := shiftLeft_ipv6 h
      rw [hwidth] at hwide hnum
      rw [hd, Nat.max_eq_left (by decide), Nat.shiftLeft_eq] at hnum
      refine ⟨.wide hwide ?_, ?_⟩
      · rw [hnum, U128.toNat_shiftLeft]
      · rw [hnum, hd, Nat.mod_eq_of_lt hlt]

private theorem worth_shiftRight {d x e : Data} {n : BitVec 32}
    (hx : Worth packet base d x) (t : DataType)
    (h : shiftData .shiftRight x (.unum n) = .ok e) :
    Worth packet base (.op .shiftRight t d (.unum n) .none) e := by
  have hnum : (Data.op .shiftRight t d (.unum n) .none).num packet base =
      d.num packet base >>> n.toNat := rfl
  cases hx with
  | @narrow k hwidth hd =>
      obtain ⟨r, rfl, hr⟩ := shiftRight_unum h
      exact .narrow hwidth (hnum.trans (by rw [hd, hr]))
  | @wide k hwidth hd =>
      cases h
      exact .wide hwidth (hnum.trans (by rw [hd, U128.toNat_shiftRight]; rfl))

private theorem evaluateAccess_constant {m : Data}
    (h : m.isConstant = true) : evaluateAccess packet base m = .ok m := by
  cases m <;> first | rfl | cases h

private theorem evaluateAccess_op (dsc : OpDsc) (h : dsc ≠ .access)
    (t : DataType) (a b c : Data) :
    evaluateAccess packet base (.op dsc t a b c) =
      (evaluateAccess packet base a >>= fun x =>
        evaluateAccess packet base b >>= fun y => opBinary dsc x y) := by
  rw [evaluateAccess]
  exact fun heq => h heq

/-- One step on the value of what is below it. -/
private theorem evaluate_apply {d x e : Data} (hx : Worth packet base d x)
    (hd : evaluateAccess packet base d = .ok x) (s : AccessStep)
    (h : evaluateAccess packet base (s.apply d) = .ok e) :
    Worth packet base (s.apply d) e ∧
      (s.apply d).num packet base = s.step.act (d.num packet base) := by
  cases s with
  | mask t left m hm =>
      have hconst := Data.convertIpv6_toNat hm packet base
      cases left with
      | true =>
          have heval : evaluateAccess packet base (.op .and t m d .none) =
              unum2Data .and m x := by
            rw [evaluateAccess_op .and (by decide),
              evaluateAccess_constant hm, hd]
            rfl
          have hnum : (Data.op .and t m d .none).num packet base =
              (Data.op .and t d m .none).num packet base :=
            Nat.and_comm _ _
          have hwidth : (Data.op .and t m d .none).width =
              (Data.op .and t d m .none).width := Nat.max_comm _ _
          have hresult := heval.symm.trans h
          rw [unum2Data_comm hx.constant hm] at hresult
          refine ⟨(worth_and hx hm t hresult).congr hwidth hnum, ?_⟩
          rw [AccessStep.step, MaskShift.Step.act, hconst]
          exact hnum
      | false =>
          have heval : evaluateAccess packet base (.op .and t d m .none) =
              unum2Data .and x m := by
            rw [evaluateAccess_op .and (by decide),
              evaluateAccess_constant hm, hd]
            rfl
          refine ⟨worth_and hx hm t (heval.symm.trans h), ?_⟩
          rw [AccessStep.step, MaskShift.Step.act, hconst]
          rfl
  | shiftLeft t n =>
      have heval : evaluateAccess packet base
          (.op .shiftLeft t d (.unum n) .none) =
            shiftData .shiftLeft x (.unum n) := by
        rw [evaluateAccess_op .shiftLeft (by decide), hd]
        rfl
      exact worth_shiftLeft hx t (heval.symm.trans h)
  | shiftRight t n =>
      have heval : evaluateAccess packet base
          (.op .shiftRight t d (.unum n) .none) =
            shiftData .shiftRight x (.unum n) := by
        rw [evaluateAccess_op .shiftRight (by decide), hd]
        rfl
      exact ⟨worth_shiftRight hx t (heval.symm.trans h),
        Nat.shiftRight_eq_div_pow _ _⟩

/-- What is below a step has a value, too. -/
private theorem evaluate_operand {s : AccessStep} {d e : Data}
    (h : evaluateAccess packet base (s.apply d) = .ok e) :
    ∃ x, evaluateAccess packet base d = .ok x := by
  cases s with
  | mask t left m hm =>
      cases left with
      | true =>
          rw [AccessStep.apply, if_pos rfl,
            evaluateAccess_op .and (by decide)] at h
          obtain ⟨_, -, hoperand⟩ := bind_eq_ok.mp h
          obtain ⟨x, hx, -⟩ := bind_eq_ok.mp hoperand
          exact ⟨x, hx⟩
      | false =>
          rw [AccessStep.apply, if_neg Bool.false_ne_true,
            evaluateAccess_op .and (by decide)] at h
          obtain ⟨x, hx, -⟩ := bind_eq_ok.mp h
          exact ⟨x, hx⟩
  | shiftLeft t n =>
      rw [AccessStep.apply, evaluateAccess_op .shiftLeft (by decide)] at h
      obtain ⟨x, hx, -⟩ := bind_eq_ok.mp h
      exact ⟨x, hx⟩
  | shiftRight t n =>
      rw [AccessStep.apply, evaluateAccess_op .shiftRight (by decide)] at h
      obtain ⟨x, hx, -⟩ := bind_eq_ok.mp h
      exact ⟨x, hx⟩

theorem evaluate_under {size : BitVec 32} {y : Data} (hy : AccessOf size y)
    (ss : List AccessStep) {e : Data}
    (h : evaluateAccess packet base (under y ss) = .ok e) :
    Worth packet base (under y ss) e ∧
      (under y ss).num packet base =
        MaskShift.value (accessSteps ss) (y.num packet base) ∧
      MaskShift.Fits 128 (accessSteps ss) (y.num packet base) := by
  induction ss generalizing e with
  | nil =>
      obtain ⟨x, hx, hworth⟩ := worth_access packet base hy
      have heq : e = x := Except.ok.inj (h.symm.trans hx)
      exact ⟨heq ▸ hworth, rfl, hworth.lt⟩
  | cons s ss ih =>
      obtain ⟨x, hx⟩ := evaluate_operand (d := under y ss) (s := s) h
      obtain ⟨hworth, hnum, hfits⟩ := ih hx
      obtain ⟨hstep, hact⟩ := evaluate_apply hworth hx s h
      have hvalue : (under y (s :: ss)).num packet base =
          MaskShift.value (accessSteps (s :: ss)) (y.num packet base) := by
        rw [accessSteps, List.map_cons, MaskShift.value, List.foldr_cons]
        exact hact.trans (congrArg _ hnum)
      exact ⟨hstep, hvalue, hvalue ▸ hstep.lt, hfits⟩

end

/-! ## Exceptions -/

/-- By how many bits `X` is shifted left, or right, all in all. -/
def leftBits (ss : List AccessStep) : Nat :=
  MaskShift.lefts (accessSteps ss) - MaskShift.rights (accessSteps ss)

def rightBits (ss : List AccessStep) : Nat :=
  MaskShift.rights (accessSteps ss) - MaskShift.lefts (accessSteps ss)

/-- The bits of the access that show up in `X`. -/
def shownBits (ss : List AccessStep) (size : BitVec 32) : Nat :=
  MaskShift.shown 128 (accessSteps ss) &&& (2 ^ size.toNat - 1)

/-- The constant for the access itself; a greater number is taken if bits are
lost in front of `>`. -/
def movedConstant (dsc : OpDsc) (ss : List AccessStep) (c : Nat) : Nat :=
  c * 2 ^ rightBits ss / 2 ^ leftBits ss +
    if dsc = .gt ∧ ¬2 ^ leftBits ss ∣ c then 1 else 0

/-- `X` is the next number after a constant that it cannot be. -/
def NextAfter (dsc : OpDsc) (ss : List AccessStep) (c x : Nat) : Prop :=
  dsc = .gt ∧ ¬2 ^ leftBits ss ∣ c ∧
    x = (c / 2 ^ leftBits ss + 1) * 2 ^ leftBits ss

/-- `X` is greater than the constant, but `u128_cmp` finds all bits of the
access that show up to be less than the moved constant. -/
def MaskBelow (dsc : OpDsc) (ss : List AccessStep) (size : BitVec 32)
    (c x : Nat) : Prop :=
  dsc.ordering = true ∧ c < x ∧
    (U128.ofNat (shownBits ss size)).cmp
      (U128.ofNat (movedConstant dsc ss c)) < 0

/-! ## Results -/

private theorem ofNat_toNat (a : U128) : U128.ofNat a.toNat = a := by
  apply U128.toNat_injective
  rw [U128.toNat_ofNat, Nat.mod_eq_of_lt a.toNat_lt]

private theorem relOp_mul (dsc : OpDsc) (m n : Nat) {k : Nat} (hk : 0 < k) :
    relOp dsc (m * k) (n * k) = relOp dsc m n := by
  cases dsc <;> simp only [relOp]
  case eq => exact beq_eq_beq.mpr (Nat.mul_left_inj hk.ne')
  case ne => exact congrArg not (beq_eq_beq.mpr (Nat.mul_left_inj hk.ne'))
  case gt | lt => exact decide_eq_decide.mpr (Nat.mul_lt_mul_right hk)
  case ge | le => exact decide_eq_decide.mpr (Nat.mul_le_mul_right_iff hk)

private theorem relOp_of_lt (dsc : OpDsc) {m n m' n' : Nat} (h : m < n)
    (h' : m' < n') : relOp dsc m n = relOp dsc m' n' := by
  cases dsc with
  | eq =>
      exact (beq_false_of_ne (Nat.ne_of_lt h)).trans
        (beq_false_of_ne (Nat.ne_of_lt h')).symm
  | ne =>
      exact (bne_iff_ne.mpr (Nat.ne_of_lt h)).trans
        (bne_iff_ne.mpr (Nat.ne_of_lt h')).symm
  | gt | ge | lt | le =>
      apply decide_eq_decide.mpr
      omega
  | _ => rfl

private theorem maskedResult_iff (dsc : OpDsc) {mask c : U128} {w : Nat}
    (hw : w &&& mask.toNat = w) :
    maskedResult dsc mask c w = relOp dsc w c.toNat ↔
      ¬(dsc.ordering = true ∧ c.toNat < w ∧ mask.cmp c < 0) := by
  unfold maskedResult
  split
  · rename_i hbelow
    obtain ⟨hord, hcmp⟩ := hbelow
    have hne : w ≠ c.toNat := by
      rw [← hw]
      exact masked_ne (not_subset_of_cmp hcmp)
    have hiff : relOp dsc 0 1 = relOp dsc w c.toNat ↔ ¬c.toNat < w := by
      cases dsc with
      | gt | ge | lt | le =>
          simp only [relOp, decide_eq_decide]
          omega
      | _ => cases hord
    rw [hiff, not_congr]
    exact ⟨fun h => ⟨hord, h, hcmp⟩, fun h => h.2.1⟩
  · rename_i hbelow
    exact iff_of_true rfl fun h => hbelow ⟨h.1, h.2.2⟩

section

variable {size : BitVec 32} {y : Data} (hy : SizedAccess size y)
  (ss : List AccessStep)
include hy

private theorem accessLoop_ends :
    LoopEnds y (MaskShift.shown 128 (accessSteps ss))
      (.ofNat 32 (MaskShift.rights (accessSteps ss)) -
        .ofNat 32 (MaskShift.lefts (accessSteps ss)))
      (accessLoop .ones 0 (under y ss)) := by
  rw [← MaskShift.back_ones, ← U128.toNat_ones,
    ← BitVec.zero_add (.ofNat 32 (MaskShift.rights (accessSteps ss)))]
  cases hy with
  | intro => exact accessLoop_under ss .ones 0

private theorem accessBits_access : accessBits y = size ∧ size ≠ 0 ∧
    size.toNat ≤ 128 := by
  cases hy with
  | intro ht ha hb hne hle => exact ⟨rfl, hne, hle⟩

theorem access_lt (packet : Packet) (base : Base) :
    y.num packet base < 2 ^ size.toNat := by
  cases hy with
  | intro => exact readBits_lt _ _ _

theorem access_type : y.isOp = true ∧
    (y.type = .unum ∨ y.type = .ipv6) := by
  cases hy with
  | intro ht => exact ⟨rfl, ht⟩

/-- If nothing shows up, `X` is zero. -/
theorem relAccessTest_none {dsc : OpDsc}
    (hdsc : dsc.relational = true) {c : Data} (hc : c.isConstant = true)
    (hnone : MaskShift.shown 128 (accessSteps ss) = 0) :
    relAccessTest dsc (under y ss) c =
      .ok (boolUnum (relOp dsc 0 c.convertIpv6.toNat)) := by
  obtain ⟨hmask, -⟩ := accessLoop_ends hy ss
  obtain ⟨m, hm, hmoved⟩ := moveConstant_zero hdsc c.convertIpv6
    (accessLoop .ones 0 (under y ss)).cShift
  have hsized : (accessLoop .ones 0 (under y ss)).sizedMask.toNat = 0 := by
    rw [hnone] at hmask
    simp only [Access.sizedMask]
    split
    · exact hmask
    · rw [U128.toNat_and, hmask, Nat.zero_and]
  have htest : relAccessTest dsc (under y ss) c =
      (accessLoop .ones 0 (under y ss)).finish m := by
    rw [relAccessTest, if_neg (by simp [hc])]
    simp only [hm]
    rfl
  rw [htest]
  cases m with
  | done d => exact congrArg Except.ok hmoved
  | test dsc' c' =>
      obtain ⟨-, hrel⟩ := hmoved
      rw [Access.finish, maskedTest_zero hsized, hrel]

/-- If anything does, the access is masked. -/
theorem relAccessTest_some {dsc : OpDsc} {c : Data}
    (hc : c.isConstant = true)
    (hsome : MaskShift.shown 128 (accessSteps ss) ≠ 0) {m : Moved}
    (hm : moveConstant dsc c.convertIpv6
      (.ofNat 32 (MaskShift.rights (accessSteps ss)) -
        .ofNat 32 (MaskShift.lefts (accessSteps ss))) = .ok m) :
    ∃ access : Access, access.x = y ∧
      access.sizedMask = .ofNat (shownBits ss size) ∧
      relAccessTest dsc (under y ss) c = access.finish m := by
  obtain ⟨hmask, hx | hzero⟩ := accessLoop_ends hy ss
  swap
  · exact absurd hzero hsome
  obtain ⟨hx, hshift⟩ := hx
  obtain ⟨hbits, hne, hle⟩ := accessBits_access hy
  have hsized : (accessLoop .ones 0 (under y ss)).sizedMask =
      .ofNat (shownBits ss size) := by
    simp only [Access.sizedMask, hx, hbits, if_neg hne]
    rw [← ofNat_toNat (U128.and _ _), U128.toNat_and, hmask, lowMask_toNat,
      Nat.min_eq_left hle]
    rfl
  refine ⟨_, hx, hsized, ?_⟩
  rw [relAccessTest, if_neg (by simp [hc])]
  simp only [hshift, hm]
  rfl

end

/-! ## Exact shifts -/

/-- What `X` is worth, in terms of the bits that show up. -/
private theorem value_balanced {x m r l : Nat} (h : x * 2 ^ r = m * 2 ^ l) :
    x * 2 ^ (r - l) = m * 2 ^ (l - r) := by
  rcases Nat.le_total l r with hle | hle
  · obtain ⟨d, rfl⟩ := Nat.exists_eq_add_of_le hle
    rw [Nat.sub_eq_zero_of_le hle, Nat.add_sub_cancel_left, Nat.pow_zero,
      Nat.mul_one]
    rw [Nat.pow_add, Nat.mul_comm (2 ^ l), ← Nat.mul_assoc] at h
    exact Nat.eq_of_mul_eq_mul_right (Nat.two_pow_pos l) h
  · obtain ⟨d, rfl⟩ := Nat.exists_eq_add_of_le hle
    rw [Nat.sub_eq_zero_of_le hle, Nat.add_sub_cancel_left, Nat.pow_zero,
      Nat.mul_one]
    rw [Nat.pow_add, Nat.mul_comm (2 ^ r), ← Nat.mul_assoc] at h
    exact Nat.eq_of_mul_eq_mul_right (Nat.two_pow_pos r) h

/-- A multiple is compared with a number that is none. -/
private theorem lost_compare {w c k : Nat} (h : ¬2 ^ k ∣ c) :
    (c < w * 2 ^ k ↔ c / 2 ^ k < w) ∧ w * 2 ^ k ≠ c := by
  refine ⟨(Nat.div_lt_iff_lt_mul (Nat.two_pow_pos k)).symm, ?_⟩
  rintro rfl
  exact h (Nat.dvd_mul_left _ _)

section

variable {dsc : OpDsc} {ss : List AccessStep} {size : BitVec 32}
  {c x w : Nat}

/-- Right, with the exceptions. -/
def Excepted (dsc : OpDsc) (ss : List AccessStep) (size : BitVec 32)
    (c x : Nat) (result : Bool) : Prop :=
  result = relOp dsc x c ↔
    ¬NextAfter dsc ss c x ∧ ¬MaskBelow dsc ss size c x

private theorem excepted_of_right (hnext : ¬NextAfter dsc ss c x)
    (hbelow : dsc.ordering = true → ¬c < x) :
    Excepted dsc ss size c x (relOp dsc x c) :=
  iff_of_true rfl ⟨hnext, fun h => hbelow h.1 h.2.1⟩

/-- The test that is left has the same result as the one before. -/
private theorem excepted_of_test {dsc' : OpDsc} {c' : U128}
    (hw : w &&& (U128.ofNat (shownBits ss size)).toNat = w)
    (hrel : relOp dsc' w c'.toNat = relOp dsc x c)
    (hord : dsc'.ordering = dsc.ordering)
    (hmoved : movedConstant dsc ss c = c'.toNat)
    (hlt : c'.toNat < w ↔ c < x) (hnext : ¬NextAfter dsc ss c x) :
    Excepted dsc ss size c x
      (maskedResult dsc' (.ofNat (shownBits ss size)) c' w) := by
  unfold Excepted
  rw [← hrel, maskedResult_iff dsc' hw, hord, hlt, and_iff_right hnext,
    MaskBelow, hmoved, ofNat_toNat]

/-- `X > C + 1` instead of `X > C` leaves one number out. -/
private theorem excepted_of_gt {c' : U128} {k : Nat}
    (hk : leftBits ss = k) (hx : x = w * 2 ^ k) (hlost : ¬2 ^ k ∣ c)
    (hc' : c'.toNat = c / 2 ^ k + 1)
    (hmoved : movedConstant .gt ss c = c'.toNat) :
    Excepted .gt ss size c x
      (maskedResult .gt (.ofNat (shownBits ss size)) c' w) := by
  have hnext : NextAfter .gt ss c x ↔ w = c'.toNat := by
    unfold NextAfter
    rw [hk, hx, hc', Nat.mul_left_inj (Nat.two_pow_pos k).ne']
    exact ⟨fun h => h.2.2, fun h => ⟨rfl, hlost, h⟩⟩
  have hlt : c < x ↔ c'.toNat ≤ w := by
    rw [hx, hc']
    exact (lost_compare hlost).1
  have hbelow : MaskBelow .gt ss size c x ↔
      c'.toNat ≤ w ∧ (U128.ofNat (shownBits ss size)).cmp c' < 0 := by
    unfold MaskBelow
    rw [hmoved, ofNat_toNat, hlt]
    exact and_iff_right rfl
  have hrel : relOp .gt x c = decide (c'.toNat ≤ w) := decide_eq_decide.mpr hlt
  unfold Excepted maskedResult
  rw [hnext, hbelow, hrel]
  split
  · rename_i hcmp
    have hfalse : relOp .gt 0 1 = false := rfl
    rw [hfalse, eq_comm, decide_eq_false_iff_not]
    constructor
    · intro h
      exact ⟨fun heq => h heq.ge, fun hle => h hle.1⟩
    · rintro ⟨-, h⟩ hle
      exact h ⟨hle, hcmp.2⟩
  · rename_i hcmp
    have hgt : relOp .gt w c'.toNat = decide (c'.toNat < w) := rfl
    rw [hgt, decide_eq_decide]
    constructor
    · intro h
      refine ⟨fun heq => ?_, fun hle => hcmp ⟨rfl, hle.2⟩⟩
      rw [heq] at h
      exact Nat.lt_irrefl _ (h.mpr (Nat.le_refl _))
    · rintro ⟨hne, -⟩
      omega

/-- What is done after the constant is moved is right, with the
exceptions. -/
def MovedExcepted (dsc : OpDsc) (ss : List AccessStep) (size : BitVec 32)
    (c x w : Nat) : Moved → Prop
  | .done d => ∃ result, d = boolUnum result ∧
      Excepted dsc ss size c x result
  | .test dsc' c' => dsc'.relational = true ∧
      Excepted dsc ss size c x
        (maskedResult dsc' (.ofNat (shownBits ss size)) c' w)

private theorem not_nextAfter (h : 2 ^ leftBits ss ∣ c) :
    ¬NextAfter dsc ss c x := fun hnext => hnext.2.1 h

theorem movedConstant_of_dvd (h : 2 ^ leftBits ss ∣ c) :
    movedConstant dsc ss c = c * 2 ^ rightBits ss / 2 ^ leftBits ss := by
  rw [movedConstant, if_neg fun hgt => hgt.2 h, Nat.add_zero]

/-- Bits of the constant are lost. -/
private theorem moveLost_excepted (hdsc : dsc.relational = true)
    (hw : w &&& (U128.ofNat (shownBits ss size)).toNat = w)
    (hright : rightBits ss = 0) (hx : x = w * 2 ^ leftBits ss)
    (hc : c < 2 ^ 128) (hlost : ¬2 ^ leftBits ss ∣ c) {c' : U128}
    (hc' : c'.toNat = c / 2 ^ leftBits ss) :
    MovedExcepted dsc ss size c x w (moveLost dsc c') := by
  obtain ⟨hlt, hne⟩ := lost_compare (w := w) hlost
  rw [← hx, ← hc'] at hlt
  rw [← hx] at hne
  have hmoved (h : dsc ≠ .gt) : movedConstant dsc ss c = c'.toNat := by
    rw [movedConstant, if_neg fun hgt => h hgt.1, hright, hc', Nat.pow_zero,
      Nat.mul_one, Nat.add_zero]
  cases dsc with
  | eq =>
      have hfalse : relOp .eq x c = false := beq_false_of_ne hne
      have hresult : Excepted .eq ss size c x (relOp .eq x c) :=
        excepted_of_right (fun h => nomatch h.1) nofun
      exact ⟨_, rfl, hfalse ▸ hresult⟩
  | ne =>
      have htrue : relOp .ne x c = true := bne_iff_ne.mpr hne
      have hresult : Excepted .ne ss size c x (relOp .ne x c) :=
        excepted_of_right (fun h => nomatch h.1) nofun
      exact ⟨_, rfl, htrue ▸ hresult⟩
  | lt =>
      refine ⟨rfl, excepted_of_test hw (decide_eq_decide.mpr ?_) rfl
        (hmoved nofun) hlt.symm fun h => nomatch h.1⟩
      omega
  | le =>
      refine ⟨rfl, excepted_of_test hw (decide_eq_decide.mpr ?_) rfl
        (hmoved nofun) hlt.symm fun h => nomatch h.1⟩
      omega
  | ge =>
      refine ⟨rfl, excepted_of_test hw (decide_eq_decide.mpr ?_) rfl
        (hmoved nofun) hlt.symm fun h => nomatch h.1⟩
      omega
  | gt =>
      have hhalf : c / 2 ^ leftBits ss ≤ c / 2 := by
        apply Nat.div_le_div_left _ (by decide)
        refine Nat.le_self_pow ?_ 2
        intro hzero
        rw [hzero] at hlost
        exact hlost (Nat.one_dvd c)
      have hnext : (c'.add32 1).toNat = c / 2 ^ leftBits ss + 1 := by
        rw [U128.toNat_add32_one (by omega), hc']
      refine ⟨rfl, excepted_of_gt rfl hx hlost hnext ?_⟩
      rw [movedConstant, if_pos ⟨rfl, hlost⟩, hright, hnext, Nat.pow_zero,
        Nat.mul_one]
  | _ => cases hdsc

/-- Whatever becomes of the constant. -/
private theorem moveConstant_excepted (hdsc : dsc.relational = true)
    (hw : w &&& (U128.ofNat (shownBits ss size)).toNat = w)
    (hbalanced : x * 2 ^ rightBits ss = w * 2 ^ leftBits ss)
    (hsome : MaskShift.shown 128 (accessSteps ss) ≠ 0) (k : U128) :
    ∃ m, moveConstant dsc k
        (.ofNat 32 (MaskShift.rights (accessSteps ss)) -
          .ofNat 32 (MaskShift.lefts (accessSteps ss))) = .ok m ∧
      MovedExcepted dsc ss size k.toNat x w m := by
  have hwlt : w < 2 ^ 128 := by
    rw [← hw]
    exact Nat.lt_of_le_of_lt Nat.and_le_right (U128.toNat_lt _)
  obtain ⟨hr, hl⟩ := MaskShift.shifts_lt hsome
  rcases (Nat.lt_or_ge (MaskShift.rights (accessSteps ss))
    (MaskShift.lefts (accessSteps ss))).symm with hle | hlt
  · have hleft : leftBits ss = 0 := Nat.sub_eq_zero_of_le hle
    have hdvd : 2 ^ leftBits ss ∣ k.toNat := by
      rw [hleft]
      exact Nat.one_dvd _
    have hpos := Nat.two_pow_pos (rightBits ss)
    rw [hleft, Nat.pow_zero, Nat.mul_one] at hbalanced
    rcases moveConstant_right dsc k hle hr with ⟨hbig, hdone⟩ | ⟨k', hk, hk'⟩
    · have hless : x < k.toNat := by
        apply Nat.lt_of_mul_lt_mul_right (a := 2 ^ rightBits ss)
        rw [hbalanced]
        exact Nat.lt_of_lt_of_le hwlt hbig
      have hresult : relOp dsc 0 1 = relOp dsc x k.toNat :=
        relOp_of_lt dsc (by decide) hless
      refine ⟨_, hdone, _, rfl, ?_⟩
      rw [hresult]
      exact excepted_of_right (not_nextAfter hdvd) fun _ => by omega
    · refine ⟨_, hk, hdsc, excepted_of_test hw ?_ rfl ?_ ?_
        (not_nextAfter hdvd)⟩
      · rw [hk', ← hbalanced]
        exact relOp_mul dsc x k.toNat hpos
      · rw [movedConstant_of_dvd hdvd, hleft, Nat.pow_zero, Nat.div_one, hk']
        rfl
      · rw [hk', ← hbalanced]
        exact Nat.mul_lt_mul_right hpos
  · have hright : rightBits ss = 0 := Nat.sub_eq_zero_of_le (Nat.le_of_lt hlt)
    rw [hright, Nat.pow_zero, Nat.mul_one] at hbalanced
    obtain ⟨k', hk', hmove⟩ := moveConstant_left dsc k hlt hl
    refine ⟨_, hmove, ?_⟩
    split
    · rename_i hdvd
      have hpos := Nat.two_pow_pos (leftBits ss)
      have hk : k'.toNat * 2 ^ leftBits ss = k.toNat := by
        rw [hk']
        exact Nat.div_mul_cancel hdvd
      refine ⟨hdsc, excepted_of_test hw ?_ rfl ?_ ?_ (not_nextAfter hdvd)⟩
      · rw [hbalanced, ← hk]
        exact (relOp_mul dsc w k'.toNat hpos).symm
      · rw [movedConstant_of_dvd hdvd, hright, Nat.pow_zero, Nat.mul_one, hk']
        rfl
      · rw [hbalanced, ← hk]
        exact (Nat.mul_lt_mul_right hpos).symm
    · rename_i hlost
      exact moveLost_excepted hdsc hw hright hbalanced k.toNat_lt hlost hk'

end

/-! ## Tests -/

/-- `X rel C` -/
abbrev accessTest (dsc : OpDsc) (y : Data) (ss : List AccessStep)
    (c : Data) : Data := .op dsc .unum (under y ss) c .none

/-- What comes out of `rel_access` has the value of before. -/
def RelAccessKeeps (env : Env) (base : Base) (d : Data) : Prop :=
  ∃ e, relAccess d = .ok e ∧ e.eval env base = d.eval env base

theorem relAccess_relational {dsc : OpDsc}
    (h : dsc.relational = true) (t : DataType) (a b c : Data) :
    relAccess (.op dsc t a b c) = relAccessTest dsc a b := by
  cases dsc <;> first | rfl | cases h

section

variable {size : BitVec 32} {y : Data} (hy : AccessOf size y)
  {ss : List AccessStep} {dsc : OpDsc} (hdsc : dsc.relational = true)
  {c x : Data} (hc : c.isConstant = true) {env : Env} {base : Base}
  (hx : evaluateAccess env.packet base (under y ss) = .ok x)
include hy hdsc hc hx

private theorem relAccessTest_result :
    ∃ e result, relAccessTest dsc (under y ss) c = .ok e ∧
      e.eval env base = .truth result ∧
      Excepted dsc ss size c.convertIpv6.toNat
        ((under y ss).num env.packet base) result := by
  obtain ⟨hworth, hvalue, hfits⟩ := evaluate_under hy ss hx
  have hshown := MaskShift.value_shown hfits
  rw [← hvalue] at hshown
  by_cases hnone : MaskShift.shown 128 (accessSteps ss) = 0
  · have hzero : (under y ss).num env.packet base = 0 := by
      rw [hnone, Nat.and_zero, Nat.zero_mul, Nat.mul_eq_zero] at hshown
      exact hshown.resolve_right (Nat.two_pow_pos _).ne'
    refine ⟨_, _, relAccessTest_none hy.sized ss hdsc hc hnone,
      Data.eval_boolUnum _ env base, ?_⟩
    rw [hzero]
    refine excepted_of_right (fun hnext => ?_) fun _ => Nat.not_lt_zero _
    exact absurd hnext.2.2 (Nat.mul_pos (Nat.succ_pos _)
      (Nat.two_pow_pos _)).ne
  · have hsized : (U128.ofNat (shownBits ss size)).toNat =
        shownBits ss size := by
      rw [U128.toNat_ofNat]
      exact Nat.mod_eq_of_lt (Nat.lt_of_le_of_lt Nat.and_le_left
        (Nat.ofBits_lt_two_pow _))
    have hbits : y.num env.packet base &&&
          MaskShift.shown 128 (accessSteps ss) =
        y.num env.packet base &&& shownBits ss size := by
      rw [shownBits, Nat.and_comm (MaskShift.shown _ _), ← Nat.and_assoc,
        Nat.and_two_pow_sub_one_of_lt_two_pow
          (access_lt hy.sized env.packet base)]
    rw [hbits] at hshown
    have hmasked : (y.num env.packet base &&& shownBits ss size) &&&
          (U128.ofNat (shownBits ss size)).toNat =
        y.num env.packet base &&& shownBits ss size := by
      rw [hsized, Nat.and_assoc, Nat.and_self]
    obtain ⟨m, hm, hmoved⟩ := moveConstant_excepted hdsc hmasked
      (value_balanced hshown) hnone c.convertIpv6
    obtain ⟨access, haccess, hmask, htest⟩ :=
      relAccessTest_some hy.sized ss hc hnone hm
    rw [htest]
    cases m with
    | done d =>
        obtain ⟨result, hd, hresult⟩ := hmoved
        exact ⟨d, result, rfl, hd ▸ Data.eval_boolUnum _ env base, hresult⟩
    | test dsc' c' =>
        obtain ⟨hop, htype⟩ := access_type hy.sized
        obtain ⟨e, he, heval⟩ := maskedTest_spec hmoved.1 hop htype
          (.ofNat (shownBits ss size)) c'
        have hfinish : access.finish (.test dsc' c') = .ok e := by
          rw [Access.finish, hmask, haccess, he]
        refine ⟨e, _, hfinish, heval env base, ?_⟩
        rw [hsized]
        exact hmoved.2

private theorem relAccessKeeps_iff :
    RelAccessKeeps env base (accessTest dsc y ss c) ↔
      ¬NextAfter dsc ss c.convertIpv6.toNat x.convertIpv6.toNat ∧
      ¬MaskBelow dsc ss size c.convertIpv6.toNat x.convertIpv6.toNat := by
  obtain ⟨e, result, he, heval, hresult⟩ :=
    relAccessTest_result hy hdsc hc hx
  obtain ⟨hworth, -, -⟩ := evaluate_under hy ss hx
  have hnum : x.convertIpv6.toNat = (under y ss).num env.packet base := by
    cases hworth with
    | narrow _ hnum => rw [hnum, Data.convertIpv6, U128.toNat_ofBitVec32]
    | wide _ hnum => exact hnum.symm
  have htest : (accessTest dsc y ss c).eval env base =
      .truth (relOp dsc ((under y ss).num env.packet base)
        c.convertIpv6.toNat) := by
    rw [Data.eval_relational hdsc, Data.convertIpv6_toNat hc env.packet base]
  unfold Excepted at hresult
  rw [hnum, ← hresult, RelAccessKeeps, relAccess_relational hdsc, he, htest]
  constructor
  · rintro ⟨_, ⟨⟩, hsame⟩
    rwa [heval, Eval.truth_inj] at hsame
  · intro hsame
    exact ⟨e, rfl, by rw [heval, hsame]⟩

end

/-! ## Formulas -/

/-- A test of an access for which `op.c` reports no error. -/
inductive AccessTest (env : Env) (base : Base) : Data → Prop
  | intro {size : BitVec 32} {y : Data} (hy : AccessOf size y)
      (ss : List AccessStep) {dsc : OpDsc} (hdsc : dsc.relational = true)
      {c x : Data} (hc : c.isConstant = true)
      (hx : evaluateAccess env.packet base (under y ss) = .ok x) :
      AccessTest env base (accessTest dsc y ss c)

/-- A test that is none of the exceptions. -/
inductive KeptTest (env : Env) (base : Base) : Data → Prop
  | intro {size : BitVec 32} {y : Data} (hy : AccessOf size y)
      (ss : List AccessStep) {dsc : OpDsc} (hdsc : dsc.relational = true)
      {c x : Data} (hc : c.isConstant = true)
      (hx : evaluateAccess env.packet base (under y ss) = .ok x)
      (hnext : ¬NextAfter dsc ss c.convertIpv6.toNat x.convertIpv6.toNat)
      (hbelow : ¬MaskBelow dsc ss size c.convertIpv6.toNat
        x.convertIpv6.toNat) :
      KeptTest env base (accessTest dsc y ss c)

private theorem isTest_access {size : BitVec 32} {y : Data}
    (hy : AccessOf size y) (ss : List AccessStep) {dsc : OpDsc}
    (hdsc : dsc.relational = true) {c : Data} (hc : c.isConstant = true) :
    (accessTest dsc y ss c).isTest = true := by
  have hunder : (under y ss).numeric = true := by
    induction ss with
    | nil =>
        cases hy with
        | word ha hb | wide ha hb =>
            simp [under, Data.numeric, OpDsc.arithmetic, ha, hb]
    | cons s ss ih =>
        rw [under, List.foldr_cons]
        rw [under] at ih
        cases s with
        | mask t left m hm =>
            have hmask := Data.isConstant_numeric hm
            cases left <;>
              simp [AccessStep.apply, Data.numeric, OpDsc.arithmetic, ih,
                hmask]
        | shiftLeft | shiftRight =>
            simp [AccessStep.apply, Data.numeric, OpDsc.arithmetic, ih]
  simp [Data.isTest, hdsc, hunder, Data.isConstant_numeric hc]

def Vocabulary.accessTests (env : Env) (base : Base) : Vocabulary where
  test := AccessTest env base
  isTest h := by
    cases h with
    | intro hy ss hdsc hc => exact isTest_access hy ss hdsc hc
  negation := True
  count := True
  constant := True

def Vocabulary.keptTests (env : Env) (base : Base) : Vocabulary where
  test := KeptTest env base
  isTest h := by
    cases h with
    | intro hy ss hdsc hc => exact isTest_access hy ss hdsc hc
  negation := True
  count := True
  constant := True

private theorem relAccessKeeps_formula {env : Env} {base : Base} {d : Data}
    (h : Formula (.keptTests env base) d) : RelAccessKeeps env base d := by
  induction h with
  | test h =>
      cases h with
      | intro hy ss hdsc hc hx hnext hbelow =>
          exact (relAccessKeeps_iff hy hdsc hc hx).mpr ⟨hnext, hbelow⟩
  | decision d => exact ⟨_, rfl, rfl⟩
  | conform p => exact ⟨_, rfl, rfl⟩
  | count _ p => exact ⟨_, rfl, rfl⟩
  | constant _ n => exact ⟨_, rfl, rfl⟩
  | not _ _ iha =>
      obtain ⟨a', ha, heval⟩ := iha
      refine ⟨.logicalNot a', by simp only [relAccess, ha]; rfl, ?_⟩
      rw [Data.eval_logicalNot, Data.eval_logicalNot, heval]
  | and _ _ iha ihb =>
      obtain ⟨a', ha, hevala⟩ := iha
      obtain ⟨b', hb, hevalb⟩ := ihb
      refine ⟨.logicalAnd a' b', by simp only [relAccess, ha, hb]; rfl, ?_⟩
      rw [Data.eval_logicalAnd, Data.eval_logicalAnd, hevala, hevalb]
  | or _ _ iha ihb =>
      obtain ⟨a', ha, hevala⟩ := iha
      obtain ⟨b', hb, hevalb⟩ := ihb
      refine ⟨.logicalOr a' b', by simp only [relAccess, ha, hb]; rfl, ?_⟩
      rw [Data.eval_logicalOr, Data.eval_logicalOr, hevala, hevalb]

/-- `rel_access` keeps the value of formulas where no test is an exception, and
of a single test only there. -/
theorem relAccess_preserves {env : Env} {base : Base} {size : BitVec 32}
    {y : Data} (hy : AccessOf size y) (ss : List AccessStep) {dsc : OpDsc}
    (hdsc : dsc.relational = true) {c x : Data} (hc : c.isConstant = true)
    (hx : evaluateAccess env.packet base (under y ss) = .ok x) :
    (∀ d, Formula (.keptTests env base) d → RelAccessKeeps env base d) ∧
      (RelAccessKeeps env base (accessTest dsc y ss c) ↔
        ¬NextAfter dsc ss c.convertIpv6.toNat x.convertIpv6.toNat ∧
        ¬MaskBelow dsc ss size c.convertIpv6.toNat x.convertIpv6.toNat) :=
  ⟨fun _ => relAccessKeeps_formula, relAccessKeeps_iff hy hdsc hc hx⟩

/-- `X << 4 > 0x4f` where a byte is 3. -/
theorem relAccess_preserves_byte :
    RelAccessKeeps (.steady (fun _ k => decide (6 ≤ k)) fun _ => false) .start
      (accessTest .gt (packetAccess .unum 0 0 8) [.shiftLeft .unum 4]
        (.unum 0x4f)) := by
  have hx : evaluateAccess (fun _ k => decide (6 ≤ k)) .start
      (under (packetAccess .unum 0 0 8) [.shiftLeft .unum 4]) =
        .ok (.unum 48) := by decide
  refine (relAccess_preserves (.word rfl rfl (.inl rfl)) _ rfl rfl hx).2.mpr
    ⟨fun h => absurd h.2.2 (by decide), fun h => absurd h.2.1 (by decide)⟩

/-- `X << 4 > 0x1f` where a byte is 2. -/
theorem relAccess_nextMultiple :
    ¬∀ env base d, Formula (.accessTests env base) d →
      RelAccessKeeps env base d := by
  intro h
  have hy : AccessOf 8 (packetAccess .unum 0 0 8) := .word rfl rfl (.inl rfl)
  have hx : evaluateAccess (fun _ k => decide (k = 6)) .start
      (under (packetAccess .unum 0 0 8) [.shiftLeft .unum 4]) =
        .ok (.unum 32) := by decide
  have hgt : OpDsc.gt.relational = true := rfl
  have hc : (Data.unum 0x1f).isConstant = true := rfl
  have hkeeps := h (.steady (fun _ k => decide (k = 6)) fun _ => false)
    .start _ (.test (.intro hy _ hgt hc hx))
  rw [relAccessKeeps_iff hy hgt hc hx] at hkeeps
  exact hkeeps.1 ⟨rfl, by decide, by decide⟩

end Tcng
