import Tcng.Iflib.RelAccessSound
import Tcng.Iflib.RelGeneral
import Tcng.Iflib.RelToEq

/-! Inequality is turned into several tests for equality (`ne_to_eq` of
`iflib_arith.c`). -/

namespace Tcng

open ShortCircuit

/-- Where numbers under the mask can differ. -/
def neBits (mask : U128) : List Nat := (List.range 128).filter (getBit mask)

def buildNeBit (acc : Data) (c : U128) : Except Error Data :=
  buildOr (fun i => maskTest acc (setNthBit i)
    (if getBit c i then .unum 0 else setNthBit i)) (neBits (accMask acc))

def buildNePrefix (acc : Data) (c : U128) : Except Error Data :=
  buildOr (fun i => maskTest acc (bitMask i) (prefixAndTwist c i))
    (neBits (accMask acc))

/-- `build_ne`; `prefixes` is the optimization switch. -/
def buildNe (prefixes : Bool) (t : DataType) (a b c : Data) :
    Except Error Data :=
  if b.isConstant = false then .ok (.op .ne t a b c)
  else if a.isOp = false then .error (.error "Segmentation fault")
  else if prefixes then buildNePrefix a b.convertIpv6
  else buildNeBit a b.convertIpv6

def neToEqNode (prefixes : Bool) : Data → Except Error Data
  | .op .ne t a b c => buildNe prefixes t a b c
  | d => .ok d

def neToEq (prefixes : Bool) : Nat → Data → Except Error Data
  | 0, _ => .error .outOfFuel
  | fuel + 1, d => do
      let d ← neToEqNode prefixes d
      mapOperands (neToEq prefixes fuel) d

/-- With enough fuel it ends in `e`. -/
def NeToEqEnds (prefixes : Bool) (d e : Data) : Prop :=
  ∃ n, ∀ fuel, n ≤ fuel → neToEq prefixes fuel d = .ok e

private theorem neToEqNode_equalities (prefixes : Bool) (d : Data)
    (h : equalities d = true) : neToEqNode prefixes d = .ok d := by
  cases d with
  | op dsc t a b c =>
      cases dsc <;> first | rfl | cases h
  | _ => rfl

theorem neToEq_ends {prefixes : Bool} {d e : Data}
    (hnode : neToEqNode prefixes d = .ok e) (he : equalOperands e = true) :
    NeToEqEnds prefixes d e :=
  pass_ends (fun _ _ => rfl) (neToEqNode_equalities prefixes) hnode he

/-! ## Bits that differ -/

theorem mem_neBits {mask : U128} {i : Nat} :
    i ∈ neBits mask ↔ i < 128 ∧ mask.toNat.testBit i = true := by
  rw [neBits, List.mem_filter, List.mem_range]
  refine and_congr_right fun hi => ?_
  rw [getBit_eq mask hi]

theorem neBits_eq_nil {mask : U128} : neBits mask = [] ↔ mask.toNat = 0 := by
  rw [List.eq_nil_iff_forall_not_mem]
  simp only [mem_neBits]
  constructor
  · intro h
    apply Nat.eq_of_testBit_eq
    intro i
    rw [Nat.zero_testBit, ← Bool.not_eq_true]
    exact fun hi => h i ⟨lt_of_testBit mask.toNat_lt hi, hi⟩
  · intro h i hi
    rw [h, Nat.zero_testBit] at hi
    cases hi.2

section

variable {a : Data} (ha : Operand a) {c : U128}
  (hc : c.toNat &&& (accMask a).toNat = c.toNat) (packet : Packet) (base : Base)
include ha hc

/-- Bits differ under the mask only. -/
private theorem testBit_differs {i : Nat}
    (h : (a.num packet base).testBit i ≠ c.toNat.testBit i) :
    i ∈ neBits (accMask a) := by
  rw [BitOrder.and_eq_left_iff] at hc
  have hmask : (accMask a).toNat.testBit i = true := by
    cases hv : (a.num packet base).testBit i with
    | true => exact testBit_accMask ha packet base hv
    | false =>
        rw [hv, ne_eq, eq_comm, Bool.not_eq_false] at h
        exact hc i h
  exact mem_neBits.mpr ⟨lt_of_testBit (U128.toNat_lt _) hmask, hmask⟩

private theorem any_neBit :
    ((neBits (accMask a)).any fun i => decide
        (a.num packet base &&& (setNthBit i).convertIpv6.toNat =
          (if getBit c i then Data.unum 0 else setNthBit i).convertIpv6.toNat))
      = true ↔ a.num packet base ≠ c.toNat := by
  have hbit {i : Nat} (hi : i < 128) :
      a.num packet base &&& (setNthBit i).convertIpv6.toNat =
          (if getBit c i then Data.unum 0 else setNthBit i).convertIpv6.toNat ↔
        (a.num packet base).testBit i ≠ c.toNat.testBit i := by
    have hpos := Nat.two_pow_pos i
    rw [getBit_eq c hi, setNthBit_toNat hi, Nat.and_two_pow]
    cases c.toNat.testBit i with
    | true =>
        rw [if_pos rfl, Data.convertIpv6, U128.toNat_ofBitVec32]
        cases (a.num packet base).testBit i <;> simp
    | false =>
        rw [if_neg Bool.false_ne_true, setNthBit_toNat hi]
        cases (a.num packet base).testBit i <;> simp [Nat.ne_of_lt hpos]
  simp only [List.any_eq_true, decide_eq_true_eq]
  constructor
  · rintro ⟨i, hi, htest⟩ heq
    rw [hbit (mem_neBits.mp hi).1, heq] at htest
    exact htest rfl
  · intro hne
    obtain ⟨i, hi⟩ := Nat.exists_testBit_ne_of_ne hne
    have hmem := testBit_differs ha hc packet base hi
    exact ⟨i, hmem, (hbit (mem_neBits.mp hmem).1).mpr hi⟩

private theorem any_nePrefix :
    ((neBits (accMask a)).any fun i => decide
        (a.num packet base &&& (bitMask i).convertIpv6.toNat =
          (prefixAndTwist c i).convertIpv6.toNat)) = true ↔
      a.num packet base ≠ c.toNat := by
  have hlt := ha.lt packet base
  simp only [List.any_eq_true, decide_eq_true_eq]
  rw [BitOrder.ne_iff_highest]
  refine exists_congr fun i => ?_
  constructor
  · rintro ⟨hi, htest⟩
    exact (prefixAndTwist_iff hlt c (mem_neBits.mp hi).1).mp htest
  · intro hdiffers
    have hmem := testBit_differs ha hc packet base hdiffers.1
    exact ⟨hmem, (prefixAndTwist_iff hlt c (mem_neBits.mp hmem).1).mpr
      hdiffers⟩

end

/-! ## What is built -/

/-- A disjunction of tests for equality with the value of the inequality. -/
def NeToEqKeeps (prefixes : Bool) (d : Data) : Prop :=
  ∃ ds, ds ≠ [] ∧ NeToEqEnds prefixes d (disjunction ds) ∧
    (∀ e ∈ ds, ∃ x k, e = .eq x k) ∧
    ∀ env base, (disjunction ds).eval env base = d.eval env base

section

variable {a b : Data} (ha : Operand a) (hb : b.isConstant = true)
include ha hb

private theorem neToEqNode_ne (prefixes : Bool) :
    neToEqNode prefixes (.ne a b) =
      if prefixes then buildNePrefix a b.convertIpv6
      else buildNeBit a b.convertIpv6 := by
  simp only [neToEqNode, buildNe, hb, ha.isOp, Bool.true_eq_false, if_false]

private theorem keeps_of_tests {prefixes : Bool} {mask value : Nat → Data}
    (hm : ∀ i, (mask i).isConstant = true)
    (hv : ∀ i, (value i).isConstant = true)
    (hzero : (accMask a).toNat ≠ 0)
    (hnode : neToEqNode prefixes (.ne a b) =
      buildOr (fun i => maskTest a (mask i) (value i)) (neBits (accMask a)))
    (hany : ∀ packet base, ((neBits (accMask a)).any fun i => decide
        (a.num packet base &&& (mask i).convertIpv6.toNat =
          (value i).convertIpv6.toNat)) = true ↔
      a.num packet base ≠ b.convertIpv6.toNat) :
    NeToEqKeeps prefixes (.ne a b) := by
  have hne : neBits (accMask a) ≠ [] := fun hnil =>
    hzero (neBits_eq_nil.mp hnil)
  obtain ⟨ds, hds, hbuild, hform, heval⟩ := buildOr_tests ha hm hv hne
  have hequal : equalities (disjunction ds) = true := by
    apply equalities_disjunction
    intro d hd
    obtain ⟨i, hi⟩ := hform d hd
    exact equalities_maskTest ha (hm i) (hv i) hi
  refine ⟨ds, hds, neToEq_ends (hnode.trans hbuild)
    (equalOperands_of_equalities hequal), ?_, fun env base => ?_⟩
  · intro e he
    obtain ⟨i, t, hi⟩ := hform e he
    exact ⟨_, _, hi⟩
  · rw [heval, Data.eval_relational rfl,
      ← Data.convertIpv6_toNat hb env.packet base, Eval.truth_inj,
      Bool.eq_iff_iff, hany]
    exact bne_iff_ne.symm

theorem neToEq_keeps (hsubset : b.convertIpv6.toNat &&& (accMask a).toNat =
      b.convertIpv6.toNat) (hzero : (accMask a).toNat ≠ 0)
    (prefixes : Bool) : NeToEqKeeps prefixes (.ne a b) := by
  have hnode := neToEqNode_ne ha hb prefixes
  cases prefixes with
  | false =>
      refine keeps_of_tests ha hb setNthBit_constant (fun i => ?_) hzero hnode
        (any_neBit ha hsubset)
      split
      · rfl
      · exact setNthBit_constant i
  | true =>
      exact keeps_of_tests ha hb (fun _ => rfl) (fun _ => rfl) hzero hnode
        (any_nePrefix ha hsubset)

/-- With an empty mask there is nothing to build. -/
theorem neToEq_assertion (hzero : (accMask a).toNat = 0) (prefixes : Bool) :
    ¬NeToEqKeeps prefixes (.ne a b) := by
  rintro ⟨ds, -, ⟨n, hn⟩, -⟩
  have hok := hn (n + 1) (Nat.le_succ n)
  have hnil := neBits_eq_nil.mpr hzero
  have hnode := neToEqNode_ne ha hb prefixes
  rw [buildNePrefix, buildNeBit, hnil, buildOr_nil, buildOr_nil,
    ite_self] at hnode
  rw [neToEq, hnode] at hok
  cases hok

end

/-! ## What gets there -/

/-- The inequalities in a tree. -/
def neTests : Data → List Data
  | .op dsc t a b c => (if dsc = .ne then [.op dsc t a b c] else []) ++
      (neTests a ++ neTests b ++ neTests c)
  | _ => []

theorem neTests_equalities {d : Data} (h : equalities d = true) :
    neTests d = [] := by
  induction d with
  | op dsc t a b c iha ihb ihc =>
      simp only [equalities, Bool.and_eq_true] at h
      obtain ⟨hdsc, ⟨ha, hb⟩, hc⟩ := h
      have hne : dsc ≠ .ne := by
        rintro rfl
        cases hdsc
      rw [neTests, if_neg hne, iha ha, ihb hb, ihc hc]
      rfl
  | _ => rfl

/-- An inequality that comes out of the passes before. -/
def ReachesNeToEq (test d : Data) : Prop :=
  ∃ prefixes e₁ e₂ e₃, relAccess test = .ok e₁ ∧ relToEq e₁ = .ok e₂ ∧
    RelGeneralEnds prefixes e₂ e₃ ∧ d ∈ neTests e₃

/-- All of them are kept, by bits and by prefixes. -/
def InequalitiesKept (test : Data) : Prop :=
  ∀ d, ReachesNeToEq test d → ∀ prefixes, NeToEqKeeps prefixes d

private theorem not_reaches {test e d : Data} (h : relAccess test = .ok e)
    (he : e.isOp = false) : ¬ReachesNeToEq test d := by
  rintro ⟨prefixes, e₁, e₂, e₃, he₁, he₂, he₃, hd⟩
  rw [h] at he₁
  cases he₁
  have hsame : relToEq e = .ok e := by
    cases e <;> first | rfl | cases he
  have hequal : equalities e = true := by
    cases e <;> first | rfl | cases he
  have hnode : relGeneralNode prefixes e = .ok e := by
    cases e <;> first | rfl | cases he
  rw [hsame] at he₂
  cases he₂
  rw [he₃.unique (relGeneral_ends hnode (equalOperands_of_equalities hequal)),
    neTests_equalities hequal] at hd
  cases hd

/-- Of `rel_general`'s results only an inequality that it does not touch has
inequalities in it. -/
private theorem neTests_relGeneral {dsc : OpDsc} {a c : Data}
    (hdsc : dsc.relational = true) (ha : Operand a)
    (hc : c.isConstant = true) {prefixes : Bool} {e d : Data}
    (h : RelGeneralEnds prefixes (.op dsc .unum a c .none) e)
    (hd : d ∈ neTests e) : dsc = .ne ∧ d = .ne a c := by
  have hequala := equalities_numeric ha.numeric
  have hequalc := equalities_numeric (Data.isConstant_numeric hc)
  cases dsc with
  | eq =>
      have hequal : equalities (.eq a c) = true :=
        equalities_op rfl hequala hequalc .unum
      rw [h.unique (relGeneral_ends rfl
        (equalOperands_of_equalities hequal)), neTests_equalities hequal] at hd
      cases hd
  | ne =>
      have hoperands : equalOperands (.ne a c) = true := by
        rw [equalOperands, hequala, hequalc]
        rfl
      rw [h.unique (relGeneral_ends rfl hoperands), neTests, if_pos rfl,
        neTests_equalities hequala, neTests_equalities hequalc] at hd
      exact ⟨rfl, List.mem_singleton.mp hd⟩
  | gt | ge | lt | le =>
      rw [neTests_equalities (relGeneral_equalities rfl ha hc h)] at hd
      cases hd
  | _ => cases hdsc

private theorem reaches_ne {test : Data} {a c : Data} (ha : Operand a)
    (hc : c.isConstant = true) {e : Data} (h : relAccess test = .ok e)
    (he : relToEq e = .ok (.ne a c)) : ReachesNeToEq test (.ne a c) := by
  have hequala := equalities_numeric ha.numeric
  have hequalc := equalities_numeric (Data.isConstant_numeric hc)
  have hoperands : equalOperands (.ne a c) = true := by
    rw [equalOperands, hequala, hequalc]
    rfl
  refine ⟨false, _, _, _, h, he, relGeneral_ends rfl hoperands, ?_⟩
  rw [neTests, if_pos rfl]
  exact .head _

/-! ## What `rel_access` leaves -/

/-- The comparison that becomes one with `>` and the constant `n`. -/
def MovesToGreater (dsc : OpDsc) (ss : List AccessStep) (c n : Nat) : Prop :=
  (dsc = .gt ∨ (dsc = .ge ∧ ¬2 ^ leftBits ss ∣ c)) ∧
    movedConstant dsc ss c = n

/-- The comparison that becomes one with `>` and the largest word, which is
under the mask. -/
def GreaterThanWord (dsc : OpDsc) (ss : List AccessStep)
    (size : BitVec 32) (c : Nat) : Prop :=
  MovesToGreater dsc ss c (2 ^ 32 - 1) ∧
    shownBits ss size % 2 ^ 32 = 2 ^ 32 - 1

/-- The relation is `>` only after these comparisons. -/
def MovedAs (dsc : OpDsc) (ss : List AccessStep) (c : Nat) : Moved → Prop
  | .done d => d.isOp = false ∧ ∀ n < 2 ^ 128, ¬MovesToGreater dsc ss c n
  | .test dsc' c' => dsc'.relational = true ∧
      ∀ n < 2 ^ 128, dsc' = .gt ∧ c'.toNat = n ↔ MovesToGreater dsc ss c n

section

variable {dsc : OpDsc} (hdsc : dsc.relational = true)
  {ss : List AccessStep} {c : Nat}

private theorem movesToGreater_of_dvd (h : 2 ^ leftBits ss ∣ c) (n : Nat) :
    MovesToGreater dsc ss c n ↔ dsc = .gt ∧
      c * 2 ^ rightBits ss / 2 ^ leftBits ss = n := by
  rw [MovesToGreater, movedConstant_of_dvd h]
  refine and_congr_left fun _ => or_iff_left ?_
  exact fun hge => hge.2 h

include hdsc

/-- Bits of the constant are lost. -/
private theorem moveLost_movedAs (hright : rightBits ss = 0)
    (hc : c < 2 ^ 128) (hlost : ¬2 ^ leftBits ss ∣ c) {c' : U128}
    (hc' : c'.toNat = c / 2 ^ leftBits ss) :
    MovedAs dsc ss c (moveLost dsc c') := by
  have hmoved : movedConstant dsc ss c =
      c'.toNat + if dsc = .gt then 1 else 0 := by
    simp only [movedConstant, hright, hc', Nat.pow_zero, Nat.mul_one, hlost,
      not_false_eq_true, and_true]
  have hgreater (n : Nat) : MovesToGreater dsc ss c n ↔
      (dsc = .gt ∨ dsc = .ge) ∧ (c'.toNat + if dsc = .gt then 1 else 0) = n := by
    rw [MovesToGreater, hmoved, and_iff_left hlost]
  cases dsc with
  | eq | ne => exact ⟨rfl, fun n _ h => by simp [hgreater] at h⟩
  | lt | le => exact ⟨rfl, fun n _ => by simp [hgreater]⟩
  | ge => exact ⟨rfl, fun n _ => by simp [hgreater]⟩
  | gt =>
      refine ⟨rfl, fun n _ => ?_⟩
      have hnext : (c'.add32 1).toNat = c'.toNat + 1 := by
        have hhalf : c / 2 ^ leftBits ss ≤ c / 2 := by
          apply Nat.div_le_div_left _ (by decide)
          refine Nat.le_self_pow ?_ 2
          intro hzero
          rw [hzero] at hlost
          exact hlost (Nat.one_dvd c)
        exact U128.toNat_add32_one (by omega)
      rw [hnext, hgreater]
      simp
  | _ => cases hdsc

/-- Whatever becomes of the constant. -/
private theorem moveConstant_movedAs
    (hsome : MaskShift.shown 128 (accessSteps ss) ≠ 0) (k : U128) :
    ∃ m, moveConstant dsc k
        (.ofNat 32 (MaskShift.rights (accessSteps ss)) -
          .ofNat 32 (MaskShift.lefts (accessSteps ss))) = .ok m ∧
      MovedAs dsc ss k.toNat m := by
  obtain ⟨hr, hl⟩ := MaskShift.shifts_lt hsome
  rcases (Nat.lt_or_ge (MaskShift.rights (accessSteps ss))
    (MaskShift.lefts (accessSteps ss))).symm with hle | hlt
  · have hleft : leftBits ss = 0 := Nat.sub_eq_zero_of_le hle
    have hdvd : 2 ^ leftBits ss ∣ k.toNat := by
      rw [hleft]
      exact Nat.one_dvd _
    have hgreater (n : Nat) : MovesToGreater dsc ss k.toNat n ↔ _ :=
      movesToGreater_of_dvd hdvd n
    simp only [hleft, Nat.pow_zero, Nat.div_one] at hgreater
    rcases moveConstant_right dsc k hle hr with ⟨hbig, hdone⟩ | ⟨k', hk, hk'⟩
    · refine ⟨_, hdone, by cases relOp dsc 0 1 <;> rfl, fun n hn h => ?_⟩
      rw [hgreater] at h
      rw [h.2.symm] at hn
      exact absurd hbig (Nat.not_le.mpr hn)
    · refine ⟨_, hk, hdsc, fun n _ => ?_⟩
      rw [hgreater, hk']
      rfl
  · have hright : rightBits ss = 0 := Nat.sub_eq_zero_of_le (Nat.le_of_lt hlt)
    obtain ⟨k', hk', hmove⟩ := moveConstant_left dsc k hlt hl
    refine ⟨_, hmove, ?_⟩
    split
    · rename_i hdvd
      refine ⟨hdsc, fun n _ => ?_⟩
      rw [movesToGreater_of_dvd hdvd, hright, Nat.pow_zero, Nat.mul_one, hk']
      rfl
    · rename_i hlost
      exact moveLost_movedAs hdsc hright k.toNat_lt hlost hk'

end

/-- `u128_cmp` looks at the lowest word first, and there is nothing else in
the constant. -/
private theorem cmp_word {mask c : U128} (hc : c.toNat = 2 ^ 32 - 1) :
    mask.cmp c < 0 ↔ mask.toNat % 2 ^ 32 ≠ 2 ^ 32 - 1 := by
  have hword : c = .ofBitVec32 (.allOnes 32) := U128.toNat_injective hc
  have hlow : mask.toNat % 2 ^ 32 = mask.v0.toNat := by
    have hlt := mask.v0.isLt
    simp only [U128.toNat]
    omega
  rw [hlow, hword]
  by_cases hones : mask.v0 = .allOnes 32
  · refine iff_of_false (fun h => ?_) fun h => h (congrArg _ hones)
    obtain ⟨i, hi⟩ := U128.exists_word_of_cmp.1 h
    rcases i with _ | _ | _ | _ | i
    · have hi' : mask.v0 < .allOnes 32 := hi
      rw [hones] at hi'
      exact absurd hi' (by decide)
    all_goals exact absurd hi (Nat.not_lt_zero _)
  · have hlt : mask.v0 < .allOnes 32 := by
      rw [BitVec.lt_def]
      have hne : mask.v0.toNat ≠ (BitVec.allOnes 32).toNat := fun h =>
        hones (BitVec.eq_of_toNat_eq h)
      have hones' : (BitVec.allOnes 32).toNat = 2 ^ 32 - 1 := rfl
      omega
    refine iff_of_true ?_ fun h => hones (BitVec.eq_of_toNat_eq h)
    have hfind : ([0, 1, 2, 3].find? fun i =>
        mask.word i != (U128.ofBitVec32 (.allOnes 32)).word i) = some 0 := by
      apply List.find?_cons_of_pos
      exact bne_iff_ne.mpr hones
    rw [U128.cmp, hfind]
    simp only
    have hbelow : mask.word 0 <
        (U128.ofBitVec32 (.allOnes 32)).word 0 := hlt
    simp only [hbelow, if_true]
    decide

/-- A constant, or a test of the masked access; equality then only with
numbers under the mask, and `>` with the largest word only where that is said
to become of the comparison. -/
private theorem relAccess_outcome {size : BitVec 32} {y : Data}
    (hy : SizedAccess size y) (ss : List AccessStep) {dsc : OpDsc}
    (hdsc : dsc.relational = true) {c : Data} (hc : c.isConstant = true) :
    (∃ e, relAccess (accessTest dsc y ss c) = .ok e ∧ e.isOp = false ∧
        ¬GreaterThanWord dsc ss size c.convertIpv6.toNat) ∨
      ∃ dsc' t c' mask, dsc'.relational = true ∧ (t = .unum ∨ t = .ipv6) ∧
        relAccess (accessTest dsc y ss c) = .ok (.op dsc' .unum
          (.op .and t y (narrow mask) .none) (narrow c') .none) ∧
        (dsc' = .ne → c'.toNat &&& mask.toNat = c'.toNat ∧
          mask.toNat ≠ 0) ∧
        (dsc' = .gt ∧ c'.toNat = 2 ^ 32 - 1 ↔
          GreaterThanWord dsc ss size c.convertIpv6.toNat) := by
  rw [relAccess_relational hdsc]
  have hword : 2 ^ 32 - 1 < 2 ^ 128 := by decide
  by_cases hnone : MaskShift.shown 128 (accessSteps ss) = 0
  · refine .inl ⟨_, relAccessTest_none hy ss hdsc hc hnone,
      by cases relOp dsc 0 c.convertIpv6.toNat <;> rfl, ?_⟩
    rintro ⟨-, hlow⟩
    rw [shownBits, hnone, Nat.zero_and] at hlow
    cases hlow
  obtain ⟨m, hm, hmoved⟩ := moveConstant_movedAs hdsc hnone c.convertIpv6
  obtain ⟨access, haccess, hmask, htest⟩ := relAccessTest_some hy ss hc hnone hm
  rw [htest]
  cases m with
  | done d =>
      exact .inl ⟨d, rfl, hmoved.1, fun h => hmoved.2 _ hword h.1⟩
  | test dsc' c' =>
      obtain ⟨hdsc', hgreater⟩ := hmoved
      have hsized : (U128.ofNat (shownBits ss size)).toNat =
          shownBits ss size := by
        rw [U128.toNat_ofNat]
        exact Nat.mod_eq_of_lt (Nat.lt_of_le_of_lt Nat.and_le_left
          (Nat.ofBits_lt_two_pow _))
      rw [Access.finish, hmask, haccess]
      obtain ⟨hop, htype⟩ := access_type hy
      have hgreaterWord : GreaterThanWord dsc ss size c.convertIpv6.toNat ↔
          (dsc' = .gt ∧ c'.toNat = 2 ^ 32 - 1) ∧
            shownBits ss size % 2 ^ 32 = 2 ^ 32 - 1 := by
        rw [GreaterThanWord, ← hgreater _ hword]
      rcases maskedTest_cases dsc' hop htype (.ofNat (shownBits ss size)) c'
        with ⟨value, hvalue⟩ | ⟨⟨t, ht, hmasked⟩, hcmp, hor, hsubset⟩
      · refine .inl ⟨_, hvalue, by cases value <;> rfl, fun hword' => ?_⟩
        obtain ⟨⟨rfl, hc'⟩, hlow⟩ := hgreaterWord.mp hword'
        have hcmp : ¬(U128.ofNat (shownBits ss size)).cmp c' < 0 := by
          rw [cmp_word hc', hsized, not_not]
          exact hlow
        have hor : ¬((U128.ofNat (shownBits ss size)).or c').isZero = true := by
          rw [U128.isZero_iff, U128.toNat_or, Nat.or_eq_zero_iff, hc']
          exact fun h => absurd h.2 (by decide)
        have hne : OpDsc.gt = .eq ∨ OpDsc.gt = .ne →
            c'.toNat &&& (U128.ofNat (shownBits ss size)).toNat = c'.toNat := by
          simp
        obtain ⟨t, -, htest⟩ := maskedTest_op hop htype hcmp hor hne
        rw [hvalue] at htest
        cases value <;> cases htest
      · refine .inr ⟨dsc', t, c', _, hdsc', ht, hmasked, ?_, ?_⟩
        · rintro rfl
          have hand := hsubset (.inr rfl)
          refine ⟨hand, fun hzero => hor ?_⟩
          rw [hzero, Nat.and_zero] at hand
          rw [U128.isZero_iff, U128.toNat_or, hzero, ← hand]
          rfl
        · rw [hgreaterWord]
          refine ⟨fun h => ⟨h, ?_⟩, fun h => h.1⟩
          rw [cmp_word h.2, hsized, not_not] at hcmp
          exact hcmp

/-! ## All passes -/

private theorem ne_of_reaches {test e : Data} (he : relAccess test = .ok e)
    {dsc : OpDsc} {a c : Data} (h : relToEq e = .ok (.op dsc .unum a c .none))
    (hdsc : dsc.relational = true) (ha : Operand a)
    (hc : c.isConstant = true) {d : Data} (hd : ReachesNeToEq test d) :
    dsc = .ne ∧ d = .ne a c := by
  obtain ⟨prefixes, e₁, e₂, e₃, he₁, he₂, he₃, hmem⟩ := hd
  rw [he] at he₁
  cases he₁
  rw [h] at he₂
  cases he₂
  exact neTests_relGeneral hdsc ha hc he₃ hmem

private theorem narrow_wide {c n : U128} (h : narrow c = .ipv6 n) :
    2 ^ 32 ≤ n.toNat := by
  unfold narrow at h
  split at h
  · cases h
  · rename_i hwide
    cases h
    rw [U128.is32_iff] at hwide
    exact Nat.not_lt.mp hwide

private theorem eqTest_ne {dsc : OpDsc} {increment : Bool}
    (h : eqTest dsc = some (.ne, increment)) :
    dsc = .gt ↔ increment = true := by
  cases dsc with
  | gt | ge =>
      cases h
      decide
  | _ => cases h

/-- Both versions build tests in place of every inequality, with its value,
unless the inequality is what becomes of `>` and the largest word: no bit is
left under its mask. -/
theorem neToEq_keeps_iff {size : BitVec 32} {y : Data}
    (hy : SizedAccess size y) (ss : List AccessStep) {dsc : OpDsc}
    (hdsc : dsc.relational = true) {c : Data} (hc : c.isConstant = true) :
    InequalitiesKept (accessTest dsc y ss c) ↔
      ¬GreaterThanWord dsc ss size c.convertIpv6.toNat := by
  obtain ⟨e, he, hop, hnot⟩ | ⟨dsc', t, c', mask, hdsc', ht, he, hne, hgreater⟩
    := relAccess_outcome hy ss hdsc hc
  · exact iff_of_true (fun d hd => absurd hd (not_reaches he hop)) hnot
  rw [← hgreater]
  have hynumeric : y.numeric = true := by
    cases hy with
    | intro _ ha hb => simp [Data.numeric, OpDsc.arithmetic, ha, hb]
  have hylt (packet : Packet) (base : Base) : y.num packet base < 2 ^ 128 := by
    have hle : size.toNat ≤ 128 := by
      cases hy with
      | intro _ _ _ _ hle => exact hle
    exact Nat.lt_of_lt_of_le (access_lt hy packet base)
      (Nat.pow_le_pow_right (by decide) hle)
  have ha := Operand.masked hynumeric (narrow_constant mask) hylt ht
  have hc' := narrow_constant c'
  cases htest : eqTest dsc' with
  | none =>
      have hsame : relToEq (.op dsc' .unum (.op .and t y (narrow mask) .none)
          (narrow c') .none) = .ok (.op dsc' .unum
            (.op .and t y (narrow mask) .none) (narrow c') .none) := by
        rw [relToEq, relToEq_numeric ha.numeric,
          relToEq_numeric (Data.isConstant_numeric hc')]
        exact relToEqNode_of_eqTest htest _ _ _ _
      refine iff_of_true (fun d hd prefixes => ?_) ?_
      · obtain ⟨rfl, rfl⟩ := ne_of_reaches he hsame hdsc' ha hc' hd
        obtain ⟨hsubset, hzero⟩ := hne rfl
        apply neToEq_keeps ha hc'
        · rw [accMask_masked (narrow_constant mask), narrow_toNat,
            narrow_toNat]
          exact hsubset
        · rw [accMask_masked (narrow_constant mask), narrow_toNat]
          exact hzero
      · rintro ⟨rfl, -⟩
        cases htest
  | some found =>
      obtain ⟨dsc'', increment⟩ := found
      obtain ⟨hlog, hsame⟩ | ⟨k, t', hlog, ht', hresult⟩ :=
        relToEq_test ha.numeric ha.isOp ha.type hc' htest
      · refine iff_of_true (fun d hd prefixes => ?_) ?_
        · obtain ⟨rfl, -⟩ := ne_of_reaches he hsame hdsc' ha hc' hd
          cases htest
        · rintro ⟨rfl, hword⟩
          cases htest
          have hpow : (narrow c').convertIpv6.toNat + Bool.toNat true =
              2 ^ 32 := by
            rw [narrow_toNat, hword]
            rfl
          rw [(log2Any_eq_some hc').mpr hpow] at hlog
          cases hlog
      · have hm := eqMask_constant hc' (!increment)
        have ha' := Operand.masked ha.numeric hm ha.lt ht'
        have hzero := eqMask_eq_zero hc' (fun n => narrow_wide)
          ((log2Any_eq_some hc').mp hlog)
        rw [narrow_toNat] at hzero
        have hdsc'' : dsc''.relational = true := by
          cases dsc' <;> cases htest <;> rfl
        by_cases hop : dsc'' = .ne
        · subst hop
          rw [eqTest_ne htest, ← hzero]
          constructor
          · intro hall hnone
            refine neToEq_assertion ha' rfl ?_ false (hall _
              (reaches_ne ha' rfl he hresult) false)
            rw [accMask_masked hm]
            exact hnone
          · intro hsome d hd prefixes
            obtain ⟨-, rfl⟩ := ne_of_reaches he hresult hdsc'' ha' rfl hd
            apply neToEq_keeps ha' rfl
            · exact Nat.zero_and _
            · rw [accMask_masked hm]
              exact hsome
        · refine iff_of_true (fun d hd => ?_) ?_
          · exact absurd (ne_of_reaches he hresult hdsc'' ha' rfl hd).1 hop
          · rintro ⟨rfl, -⟩
            cases htest
            exact hop rfl

/-- A byte of at least 16. -/
theorem neToEq_keeps_byte : InequalitiesKept
    (accessTest .ge (packetAccess .unum 0 0 8) [] (.unum 16)) :=
  (neToEq_keeps_iff (.intro (.inl rfl) rfl rfl (by decide) (by decide)) []
    rfl rfl).mpr (by
      rintro ⟨⟨-, hmoved⟩, -⟩
      exact absurd hmoved (by decide))

/-- A word greater than `0xffffffff`. -/
theorem neToEq_emptyMask :
    ¬∀ size y, SizedAccess size y → ∀ ss dsc, dsc.relational = true →
      ∀ c, c.isConstant = true →
      InequalitiesKept (accessTest dsc y ss c) := by
  intro h
  have hy : SizedAccess 32 (packetAccess .unum 0 0 32) :=
    .intro (.inl rfl) rfl rfl (by decide) (by decide)
  have ha : Operand (.op .and .unum (.op .and .unum
      (packetAccess .unum 0 0 32) (.unum 0xffffffff) .none) (.unum 0)
        .none) := by
    apply Operand.masked rfl rfl (fun packet base => ?_) (.inl rfl)
    exact Nat.lt_of_le_of_lt Nat.and_le_right
      (show 0xffffffff < 2 ^ 128 by decide)
  refine neToEq_assertion (b := .unum 0) ha rfl rfl false
    (h 32 _ hy [] .gt rfl (.unum 0xffffffff) rfl _ ?_ false)
  exact reaches_ne ha rfl rfl rfl

end Tcng
