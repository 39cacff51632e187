import Tcng.Lib.BitOrder
import Tcng.OpData
import Tcng.Spans

/-! Tests of single bits and of prefixes (helper functions for bit and prefix
converters of `iflib_arith.c`). -/

namespace Tcng

open ShortCircuit

def getBit (v : U128) (n : Nat) : Bool :=
  (v.shiftRight (.ofNat 32 n)).v0.getLsbD 0

/-- The bits of `v` from `n` on, bit `n` turned over. -/
def prefixAndTwist (v : U128) (n : Nat) : Data :=
  .ipv6 ((v.and (U128.ones.shiftLeft (.ofNat 32 n))).xor
    ((U128.ofBitVec32 1).shiftLeft (.ofNat 32 n)))

def setNthBit (n : Nat) : Data :=
  if n < 32 then .unum ((1 : BitVec 32) <<< n)
  else .ipv6 ((U128.ofBitVec32 1).shiftLeft (.ofNat 32 n))

def bitMask (n : Nat) : Data :=
  .ipv6 (U128.ones.shiftLeft (.ofNat 32 n))

/-- The mask of what is compared, all bits if there is none. -/
def accMask : Data → U128
  | .op .and _ _ m _ => if m.isConstant then m.convertIpv6 else .ones
  | _ => .ones

/-- `(acc & mask) == value` -/
def maskTest (acc mask value : Data) : Except Error Data := do
  let a ← unum2Data .and acc mask
  relData .eq a value

/-- `next = &next->op->b` needs an operator. -/
def fillNext (rest : Data) : Data → Except Error Data
  | .op dsc t a _ c => .ok (.op dsc t a rest c)
  | _ => .error (.error "Segmentation fault")

/-- The loop that joins tests by `||`; `data_none` must not be left. -/
def buildOr (test : Nat → Except Error Data) : List Nat → Except Error Data
  | [] => .error (.assertion "d.type != dt_none")
  | [i] => test i
  | i :: is => do
      let d ← test i
      let node ← andOrEval .logicalOr d (.unum 0)
      let rest ← buildOr test is
      fillNext rest node

/-! ## Bits -/

theorem getBit_eq (v : U128) {n : Nat} (h : n < 128) :
    getBit v n = v.toNat.testBit n := by
  have hn : (BitVec.ofNat 32 n).toNat = n := by
    rw [BitVec.toNat_ofNat]
    omega
  have hbit : (v.shiftRight (.ofNat 32 n)).v0.getLsbD 0 =
      (v.shiftRight (.ofNat 32 n)).bit 0 := rfl
  rw [getBit, hbit, U128.bit_shiftRight, hn, Nat.zero_add,
    U128.testBit_toNat]

theorem lt_of_testBit {v i : Nat} (hv : v < 2 ^ 128)
    (h : v.testBit i = true) : i < 128 := by
  by_contra hi
  rw [Nat.testBit_lt_two_pow (Nat.lt_of_lt_of_le hv
    (Nat.pow_le_pow_right (by decide) (Nat.not_lt.mp hi)))] at h
  cases h

private theorem bit_one_shiftLeft {n : Nat} (h : n < 128) (j : Nat) :
    ((U128.ofBitVec32 1).shiftLeft (.ofNat 32 n)).bit j = decide (n = j) := by
  have hn : (BitVec.ofNat 32 n).toNat = n := by
    rw [BitVec.toNat_ofNat]
    omega
  have hone (k : Nat) : (1 : BitVec 32).getLsbD k = decide (k = 0) := by
    rw [← BitVec.testBit_toNat, Bool.eq_iff_iff, decide_eq_true_iff]
    exact Nat.testBit_one_eq_true_iff_self_eq_zero
  rw [U128.bit_shiftLeft, U128.bit_ofBitVec32, hn, hone,
    ← Bool.decide_and, decide_eq_decide]
  omega

private theorem bit_ones_shiftLeft {n j : Nat} (h : n < 128) (hj : j < 128) :
    (U128.ones.shiftLeft (.ofNat 32 n)).bit j = decide (n ≤ j) := by
  have hn : (BitVec.ofNat 32 n).toNat = n := by
    rw [BitVec.toNat_ofNat]
    omega
  rw [U128.bit_shiftLeft, U128.bit_ones, hn, ← Bool.decide_and,
    decide_eq_decide]
  omega

theorem setNthBit_constant (n : Nat) : (setNthBit n).isConstant = true := by
  unfold setNthBit
  split <;> rfl

theorem setNthBit_toNat {n : Nat} (h : n < 128) :
    (setNthBit n).convertIpv6.toNat = 2 ^ n := by
  unfold setNthBit
  split
  · rename_i hn
    rw [Data.convertIpv6, U128.toNat_ofBitVec32, BitVec.toNat_shiftLeft]
    have hlt : 2 ^ n < 2 ^ 32 := Nat.pow_lt_pow_right (by decide) hn
    rw [show (1 : BitVec 32).toNat = 1 from rfl, Nat.one_shiftLeft,
      Nat.mod_eq_of_lt hlt]
  · rw [Data.convertIpv6]
    apply Nat.eq_of_testBit_eq
    intro j
    rw [U128.testBit_toNat, bit_one_shiftLeft h, Nat.testBit_two_pow]

theorem bitMask_testBit {n j : Nat} (h : n < 128) (hj : j < 128) :
    (bitMask n).convertIpv6.toNat.testBit j = decide (n ≤ j) := by
  rw [bitMask, Data.convertIpv6, U128.testBit_toNat,
    bit_ones_shiftLeft h hj]

theorem prefixAndTwist_testBit (v : U128) {n j : Nat} (h : n < 128)
    (hj : j < 128) :
    (prefixAndTwist v n).convertIpv6.toNat.testBit j =
      ((v.toNat.testBit j && decide (n ≤ j)) ^^ decide (j = n)) := by
  rw [prefixAndTwist, Data.convertIpv6, U128.testBit_toNat, U128.bit_xor,
    U128.bit_and, bit_ones_shiftLeft h hj, bit_one_shiftLeft h,
    U128.testBit_toNat, decide_eq_decide.mpr (eq_comm (a := n))]

/-! ## Operands -/

/-- What is compared: an operator with a number of up to 128 bits. -/
structure Operand (a : Data) : Prop where
  numeric : a.numeric = true
  isOp : a.isOp = true
  type : a.type = .unum ∨ a.type = .ipv6
  lt : ∀ packet base, a.num packet base < 2 ^ 128

theorem Operand.integerNumber {a : Data} (h : Operand a) :
    integerNumber a = true := integerNumber_of_type h.type

/-- `x & m` -/
theorem Operand.masked {x m : Data} (hx : x.numeric = true)
    (hm : m.isConstant = true)
    (hlt : ∀ packet base, x.num packet base < 2 ^ 128) {t : DataType}
    (ht : t = .unum ∨ t = .ipv6) : Operand (.op .and t x m .none) where
  numeric := by simp [Data.numeric, OpDsc.arithmetic, hx,
    Data.isConstant_numeric hm]
  isOp := rfl
  type := ht
  lt packet base := Nat.lt_of_le_of_lt Nat.and_le_left (hlt packet base)

theorem accMask_masked {x m : Data} (hm : m.isConstant = true)
    (t : DataType) : accMask (.op .and t x m .none) = m.convertIpv6 := by
  rw [accMask, if_pos hm]

/-- Nothing is left outside the mask. -/
theorem testBit_accMask {a : Data} (ha : Operand a) (packet : Packet)
    (base : Base) {i : Nat}
    (h : (a.num packet base).testBit i = true) :
    (accMask a).toNat.testBit i = true := by
  have hi := lt_of_testBit (ha.lt packet base) h
  have hones : U128.ones.toNat.testBit i = true := by
    rw [U128.testBit_toNat, U128.bit_ones, decide_eq_true hi]
  unfold accMask
  split
  · split
    · rename_i t x m c hm
      rw [Data.convertIpv6_toNat hm packet base]
      have hand : (Data.op .and t x m c).num packet base =
          x.num packet base &&& m.num packet base := rfl
      rw [hand, Nat.testBit_and, Bool.and_eq_true] at h
      exact h.2
    · exact hones
  · exact hones

/-! ## Tests -/

/-- A test `(a & mask) == value`, as a tree. -/
def IsMaskTest (a mask value d : Data) : Prop :=
  ∃ t, d = .eq (.op .and t a mask .none) value

section

variable {a mask value d : Data}

theorem maskTest_eq (ha : Operand a) (hm : mask.isConstant = true)
    (hv : value.isConstant = true) :
    ∃ d, maskTest a mask value = .ok d ∧ IsMaskTest a mask value d := by
  obtain ⟨t, ht, htype⟩ := mixTypes_constant .and ha.type hm
  have hand := unum2Data_op (nofun : OpDsc.and ≠ .mod) ha.integerNumber
    (integerNumber_of_constant hm) ha.isOp ht
  have hrel : relData .eq (.op .and t a mask .none) value =
      .ok (.eq (.op .and t a mask .none) value) :=
    relData_op (integerNumber_of_type htype) (integerNumber_of_constant hv) rfl
  exact ⟨_, by rw [maskTest, hand]; exact hrel, t, rfl⟩

theorem IsMaskTest.eval (h : IsMaskTest a mask value d)
    (hm : mask.isConstant = true) (hv : value.isConstant = true) (env : Env)
    (base : Base) :
    d.eval env base = .truth (decide
      (a.num env.packet base &&& mask.convertIpv6.toNat =
        value.convertIpv6.toNat)) := by
  obtain ⟨t, rfl⟩ := h
  rw [Data.eval_relational rfl, Data.convertIpv6_toNat hm env.packet base,
    Data.convertIpv6_toNat hv env.packet base]
  rfl

end

/-- The bit before the prefix differs, the bits above it do not. -/
theorem prefixAndTwist_iff {v : Nat} (hv : v < 2 ^ 128) (c : U128) {i : Nat}
    (hi : i < 128) :
    v &&& (bitMask i).convertIpv6.toNat =
        (prefixAndTwist c i).convertIpv6.toNat ↔
      v.testBit i ≠ c.toNat.testBit i ∧
        v / 2 ^ (i + 1) = c.toNat / 2 ^ (i + 1) :=
  BitOrder.and_eq_twisted hv c.toNat_lt (U128.toNat_lt _) hi
    (fun _ hj => bitMask_testBit hi hj)
    fun _ hj => prefixAndTwist_testBit c hi hj

/-! ## Disjunctions -/

def disjunction : List Data → Data
  | [] => .unum 0
  | [d] => d
  | d :: ds => .logicalOr d (disjunction ds)

theorem disjunction_eval {f : Nat → Data} {value : Nat → Bool}
    {is : List Nat} {env : Env} {base : Base}
    (h : ∀ i ∈ is, (f i).eval env base = .truth (value i)) :
    (disjunction (is.map f)).eval env base = .truth (is.any value) := by
  induction is with
  | nil => exact Data.eval_unum env base 0
  | cons i is ih =>
      have hi := h i (.head is)
      have his := ih fun j hj => h j (.tail i hj)
      cases is with
      | nil =>
          rw [List.map_singleton, disjunction, hi, List.any_cons,
            List.any_nil, Bool.or_false]
      | cons j js =>
          have hor : (disjunction ((i :: j :: js).map f)).eval env base =
              ((f i).eval env base).or
                ((disjunction ((j :: js).map f)).eval env base) :=
            Data.eval_logicalOr env base _ _ _ _
          have hany : (i :: j :: js).any value =
              (value i || (j :: js).any value) := rfl
          rw [hor, hi, his, hany]
          cases value i
          · exact Eval.false_or _
          · exact Eval.true_or _

/-- Tests are operators, so that nothing is folded. -/
theorem buildOr_eq {test : Nat → Except Error Data} {f : Nat → Data}
    {is : List Nat} (hne : is ≠ [])
    (htest : ∀ i ∈ is, test i = .ok (f i))
    (hf : ∀ i ∈ is, (f i).isOp = true ∧ (f i).type = .unum) :
    buildOr test is = .ok (disjunction (is.map f)) := by
  induction is with
  | nil => exact absurd rfl hne
  | cons i is ih =>
      have hi := htest i (.head is)
      cases is with
      | nil => exact hi
      | cons j js =>
          have hrest := ih nofun (fun k hk => htest k (.tail i hk))
            fun k hk => hf k (.tail i hk)
          obtain ⟨hop, htype⟩ := hf i (.head _)
          have hnode : andOrEval .logicalOr (f i) (.unum 0) =
              .ok (.logicalOr (f i) (.unum 0)) :=
            andOrEval_op (by simp [Data.logical, integerNumber, htype]) rfl
              (.inl hop)
          rw [buildOr]
          · simp only [hi, bind, Except.bind, hnode, hrest]
            rfl
          · nofun

/-- A chain of tests of `a` holds if one of them does. -/
theorem buildOr_tests {a : Data} (ha : Operand a) {mask value : Nat → Data}
    (hm : ∀ i, (mask i).isConstant = true)
    (hv : ∀ i, (value i).isConstant = true) {is : List Nat} (hne : is ≠ []) :
    ∃ ds, ds ≠ [] ∧
      buildOr (fun i => maskTest a (mask i) (value i)) is =
        .ok (disjunction ds) ∧
      (∀ d ∈ ds, ∃ i, IsMaskTest a (mask i) (value i) d) ∧
      ∀ env base, (disjunction ds).eval env base =
        .truth (is.any fun i => decide
          (a.num env.packet base &&& (mask i).convertIpv6.toNat =
            (value i).convertIpv6.toNat)) := by
  choose f hf hform using fun i => maskTest_eq ha (hm i) (hv i)
  have hop (i : Nat) : (f i).isOp = true ∧ (f i).type = .unum := by
    obtain ⟨t, ht⟩ := hform i
    rw [ht]
    exact ⟨rfl, rfl⟩
  refine ⟨is.map f, fun h => hne (List.map_eq_nil_iff.mp h),
    buildOr_eq hne (fun i _ => hf i) fun i _ => hop i, ?_, ?_⟩
  · intro d hd
    obtain ⟨i, -, rfl⟩ := List.mem_map.mp hd
    exact ⟨i, hform i⟩
  · intro env base
    exact disjunction_eval fun i _ => (hform i).eval (hm i) (hv i) env base

theorem buildOr_nil (test : Nat → Except Error Data) :
    buildOr test [] = .error (.assertion "d.type != dt_none") := rfl

end Tcng
