import Tcng.Iflib.BitTests

/-! Comparisons bit by bit or by prefixes (`rel_general` of
`iflib_arith.c`). -/

namespace Tcng

open ShortCircuit

/-- `next->op->a` -/
def fillFirst (first : Data) : Data → Except Error Data
  | .op dsc t _ b c => .ok (.op dsc t first b c)
  | _ => .error (.error "Segmentation fault")

def leBitOp (c : U128) (invert : Bool) (i : Nat) : OpDsc :=
  if getBit c i = invert then .logicalAnd else .logicalOr

/-- One round of `build_le_bit`. -/
def leBitLink (acc : Data) (c mask : U128) (invert : Bool) (i : Nat) :
    Except Error Data :=
  if getBit mask i = false then do
    -- nothing would be left to go on from if this were folded
    let node ← andOrEval (leBitOp c invert i) acc (boolUnum (!invert))
    fillFirst (boolUnum (!invert)) node
  else do
    let test ← maskTest acc (setNthBit i)
      (if invert then setNthBit i else .unum 0)
    andOrEval (leBitOp c invert i) test (boolUnum (!invert))

/-- `build_le_bit` from the round for bit `n - 1` on. -/
def buildLeBit (acc : Data) (c mask : U128) (invert : Bool) :
    Nat → Except Error Data
  | 0 => .ok (boolUnum (!invert))
  | i + 1 => do
      let node ← leBitLink acc c mask invert i
      let rest ← buildLeBit acc c mask invert i
      fillNext rest node

/-- Where `build_lt_prefix` makes a test. -/
def prefixBits (c mask : U128) (invert : Bool) : List Nat :=
  (List.range 128).filter fun i =>
    getBit c i != invert && (getBit mask i || getBit c i)

def buildLtPrefix (acc : Data) (c mask : U128) (invert : Bool) :
    Except Error Data :=
  buildOr (fun i => maskTest acc (bitMask i) (prefixAndTwist c i))
    (prefixBits c mask invert)

structure RelRow where
  invert : Bool
  constRes : Bool
  constIfZero : Bool
  decrement : Bool

/-- The table in `rel_general`. -/
def relRow : OpDsc → Option RelRow
  | .le => some ⟨false, true, false, false⟩
  | .gt => some ⟨true, false, false, false⟩
  | .lt => some ⟨false, false, true, true⟩
  | .ge => some ⟨true, true, true, true⟩
  | _ => none

namespace RelRow

/-- The result is known for this constant. -/
def known (row : RelRow) (k : U128) : Bool :=
  if row.constIfZero then k.isZero else k.cmp .ones == 0

def bitConstant (row : RelRow) (k : U128) : U128 :=
  if row.decrement then k.sub32 1 else k

def prefixConstant (row : RelRow) (k : U128) : U128 :=
  if row.constRes then
    if row.invert then k.sub32 1 else k.add32 1
  else k

end RelRow

/-- `build_rel`; `prefixes` is the optimization switch. -/
def buildRel (prefixes : Bool) (row : RelRow) (dsc : OpDsc) (t : DataType)
    (a b c : Data) : Except Error Data :=
  if b.isConstant = false then .ok (.op dsc t a b c)
  else
    let k := b.convertIpv6
    if row.known k then .ok (boolUnum row.constRes)
    else if a.isOp = false then .error (.error "Segmentation fault")
    else if prefixes then
      buildLtPrefix a (row.prefixConstant k) (accMask a) row.invert
    else buildLeBit a (row.bitConstant k) (accMask a) row.invert 128

def relGeneralNode (prefixes : Bool) : Data → Except Error Data
  | .op dsc t a b c =>
      match relRow dsc with
      | none => .ok (.op dsc t a b c)
      | some row => buildRel prefixes row dsc t a b c
  | d => .ok d

/-- What has been built is gone through as well. -/
def relGeneral (prefixes : Bool) : Nat → Data → Except Error Data
  | 0, _ => .error .outOfFuel
  | fuel + 1, d => do
      let d ← relGeneralNode prefixes d
      mapOperands (relGeneral prefixes fuel) d

/-! ## Results are not changed again -/

/-- There is no relation but `==`. -/
def equalities : Data → Bool
  | .op dsc _ a b c => (dsc = .eq || !dsc.relational) &&
      (equalities a && equalities b && equalities c)
  | _ => true

/-- The operator itself may be another relation. -/
def equalOperands : Data → Bool
  | .op _ _ a b c => equalities a && equalities b && equalities c
  | _ => true

theorem equalOperands_of_equalities {d : Data} (h : equalities d = true) :
    equalOperands d = true := by
  cases d with
  | op =>
      rw [equalities, Bool.and_eq_true] at h
      exact h.2
  | _ => rfl

theorem equalities_numeric {d : Data} (h : d.numeric = true) :
    equalities d = true := by
  induction d with
  | op dsc t a b c iha ihb ihc =>
      simp only [Data.numeric, Bool.and_eq_true] at h
      obtain ⟨hdsc, ⟨ha, hb⟩, hc⟩ := h
      have hrel : dsc.relational = false := by
        revert hdsc
        cases dsc <;> decide
      simp [equalities, hrel, iha ha, ihb hb, ihc hc]
  | _ => rfl

theorem equalities_op {dsc : OpDsc}
    (h : (dsc = .eq || !dsc.relational) = true) {a b : Data}
    (ha : equalities a = true) (hb : equalities b = true) (t : DataType) :
    equalities (.op dsc t a b .none) = true := by
  rw [equalities, h, ha, hb]
  rfl

section

variable {node : Data → Except Error Data}
  {pass : Nat → Data → Except Error Data}
  (hpass : ∀ fuel d,
    pass (fuel + 1) d = node d >>= fun e => mapOperands (pass fuel) e)
  (hnode : ∀ d, equalities d = true → node d = .ok d)
include hpass hnode

/-- A pass that does something about other relations only has nothing to do. -/
theorem pass_equalities {d : Data} (h : equalities d = true) {fuel : Nat}
    (hfuel : d.size ≤ fuel) : pass fuel d = .ok d := by
  induction d generalizing fuel with
  | op dsc t a b c iha ihb ihc =>
      have hkeep := hnode _ h
      simp only [equalities, Bool.and_eq_true] at h
      obtain ⟨-, ⟨ha, hb⟩, hc⟩ := h
      rw [Data.size] at hfuel
      cases fuel with
      | zero => omega
      | succ fuel =>
          rw [hpass, hkeep]
          simp only [bind, Except.bind, mapOperands,
            iha ha (show _ ≤ fuel by omega),
            ihb hb (show _ ≤ fuel by omega),
            ihc hc (show _ ≤ fuel by omega)]
  | _ =>
      cases fuel with
      | zero => exact absurd hfuel (by simp [Data.size])
      | succ fuel =>
          rw [hpass, hnode _ rfl]
          rfl

theorem pass_ends {d e : Data} (he : node d = .ok e)
    (hequal : equalOperands e = true) :
    ∃ n, ∀ fuel, n ≤ fuel → pass fuel d = .ok e := by
  refine ⟨e.size + 1, fun fuel hfuel => ?_⟩
  cases fuel with
  | zero => omega
  | succ fuel =>
      rw [hpass, he]
      cases e with
      | op dsc t a b c =>
          simp only [equalOperands, Bool.and_eq_true] at hequal
          obtain ⟨⟨ha, hb⟩, hc⟩ := hequal
          rw [Data.size] at hfuel
          simp only [bind, Except.bind, mapOperands,
            pass_equalities hpass hnode ha (show _ ≤ fuel by omega),
            pass_equalities hpass hnode hb (show _ ≤ fuel by omega),
            pass_equalities hpass hnode hc (show _ ≤ fuel by omega)]
      | _ => rfl

end

private theorem relGeneralNode_of_not_ordering (prefixes : Bool)
    {dsc : OpDsc} (h : dsc.ordering = false) (t : DataType) (a b c : Data) :
    relGeneralNode prefixes (.op dsc t a b c) = .ok (.op dsc t a b c) := by
  revert h
  cases dsc <;> first | (intro; rfl) | nofun

private theorem relGeneralNode_equalities (prefixes : Bool) (d : Data)
    (h : equalities d = true) : relGeneralNode prefixes d = .ok d := by
  cases d with
  | op dsc t a b c =>
      rw [equalities, Bool.and_eq_true] at h
      apply relGeneralNode_of_not_ordering
      have hdsc := h.1
      revert hdsc
      cases dsc <;> decide
  | _ => rfl

/-- With enough fuel it ends in `e`. -/
def RelGeneralEnds (prefixes : Bool) (d e : Data) : Prop :=
  ∃ n, ∀ fuel, n ≤ fuel → relGeneral prefixes fuel d = .ok e

theorem relGeneral_ends {prefixes : Bool} {d e : Data}
    (hnode : relGeneralNode prefixes d = .ok e)
    (he : equalOperands e = true) : RelGeneralEnds prefixes d e :=
  pass_ends (fun _ _ => rfl) (relGeneralNode_equalities prefixes) hnode he

theorem RelGeneralEnds.unique {prefixes : Bool} {d e e' : Data}
    (h : RelGeneralEnds prefixes d e) (h' : RelGeneralEnds prefixes d e') :
    e = e' := by
  obtain ⟨n, hn⟩ := h
  obtain ⟨n', hn'⟩ := h'
  have heq := (hn (n + n') (Nat.le_add_right n n')).symm.trans
    (hn' (n + n') (Nat.le_add_left n' n))
  exact Except.ok.inj heq

/-! ## Relations -/

theorem RelRow.known_iff (row : RelRow) (k : U128) : row.known k = true ↔
    k.toNat = if row.constIfZero then 0 else 2 ^ 128 - 1 := by
  unfold RelRow.known
  split
  · exact k.isZero_iff
  · rw [beq_iff_eq, U128.cmp_eq_zero_iff, ← U128.toNat_ones]
    exact ⟨congrArg U128.toNat, U128.toNat_injective⟩

section

variable {dsc : OpDsc} {row : RelRow} (hrow : relRow dsc = some row)
  {v : Nat} (k : U128)
include hrow

private theorem relOp_known (hv : v < 2 ^ 128) (h : row.known k = true) :
    relOp dsc v k.toNat = row.constRes := by
  rw [RelRow.known_iff] at h
  cases dsc with
  | gt | ge | lt | le =>
      cases hrow
      simp only [Bool.false_eq_true, if_true, if_false] at h
      rw [h]
      simp only [relOp, decide_eq_true_eq, decide_eq_false_iff_not]
      omega
  | _ => cases hrow

private theorem relOp_prefixes (h : row.known k = false) :
    relOp dsc v k.toNat = true ↔
      if row.invert then (row.prefixConstant k).toNat < v
      else v < (row.prefixConstant k).toNat := by
  have hk := k.toNat_lt
  rw [← Bool.not_eq_true, RelRow.known_iff] at h
  cases dsc with
  | gt | lt =>
      cases hrow
      exact decide_eq_true_iff
  | ge | le =>
      cases hrow
      simp only [Bool.false_eq_true, if_true, if_false] at h
      simp only [RelRow.prefixConstant, relOp, if_true, if_false,
        Bool.false_eq_true, U128.toNat_sub32_one, U128.toNat_add32_one, h, ne_eq,
        not_false_eq_true, decide_eq_true_eq]
      omega
  | _ => cases hrow

end

/-! ## Bits -/

section

variable {a : Data} (ha : Operand a) (c : U128) (invert : Bool)
include ha

omit ha in
theorem equalities_maskTest {a mask value d : Data} (ha : Operand a)
    (hm : mask.isConstant = true) (hv : value.isConstant = true)
    (h : IsMaskTest a mask value d) : equalities d = true := by
  obtain ⟨t, rfl⟩ := h
  exact equalities_op rfl
    (equalities_op rfl (equalities_numeric ha.numeric)
      (equalities_numeric (Data.isConstant_numeric hm)) t)
    (equalities_numeric (Data.isConstant_numeric hv)) .unum

/-- A test of bit `i`, or a constant that is right if the bit is masked
out. -/
private theorem leBitLink_spec {i : Nat} (hi : i < 128) :
    ∃ test, leBitLink a c (accMask a) invert i =
        .ok (.op (leBitOp c invert i) .unum test (boolUnum (!invert)) .none) ∧
      equalities test = true ∧
      ∀ env base, test.eval env base =
        .truth ((a.num env.packet base).testBit i == invert) := by
  unfold leBitLink
  rw [getBit_eq _ hi]
  split
  · rename_i hmask
    have hnode : andOrEval (leBitOp c invert i) a (boolUnum (!invert)) =
        .ok (.op (leBitOp c invert i) .unum a (boolUnum (!invert)) .none) :=
      andOrEval_op (by simp [Data.logical, ha.integerNumber]) rfl
        (.inl ha.isOp)
    refine ⟨boolUnum (!invert), ?_, rfl, fun env base => ?_⟩
    · rw [hnode]
      rfl
    · have hbit : (a.num env.packet base).testBit i = false := by
        rw [← Bool.not_eq_true]
        intro hbit
        rw [testBit_accMask ha env.packet base hbit] at hmask
        cases hmask
      rw [Data.eval_boolUnum, hbit]
      cases invert <;> rfl
  · have hvalue : (if invert then setNthBit i else .unum 0).isConstant =
        true := by
      split
      · exact setNthBit_constant i
      · rfl
    obtain ⟨test, htest, hform⟩ := maskTest_eq ha (setNthBit_constant i) hvalue
    have hnode : andOrEval (leBitOp c invert i) test (boolUnum (!invert)) =
        .ok (.op (leBitOp c invert i) .unum test (boolUnum (!invert)) .none) :=
      andOrEval_op (by obtain ⟨t, rfl⟩ := hform; rfl) rfl
        (.inl (by obtain ⟨t, rfl⟩ := hform; rfl))
    refine ⟨test, ?_, ?_, fun env base => ?_⟩
    · rw [htest]
      exact hnode
    · exact equalities_maskTest ha (setNthBit_constant i) hvalue hform
    · have hpos := Nat.two_pow_pos i
      rw [hform.eval (setNthBit_constant i) hvalue, setNthBit_toNat hi,
        Nat.and_two_pow, Eval.truth_inj]
      cases invert with
      | true =>
          rw [if_pos rfl, setNthBit_toNat hi]
          cases (a.num env.packet base).testBit i <;> simp [Nat.ne_of_lt hpos]
      | false =>
          rw [if_neg Bool.false_ne_true, Data.convertIpv6,
            U128.toNat_ofBitVec32]
          cases (a.num env.packet base).testBit i <;> simp

/-- The chain for the lower `n` bits compares the lower `n` bits. -/
private theorem buildLeBit_spec {n : Nat} (hn : n ≤ 128) :
    ∃ d, buildLeBit a c (accMask a) invert n = .ok d ∧ equalities d = true ∧
      ∀ env base, d.eval env base =
        .truth (decide (a.num env.packet base % 2 ^ n ≤ c.toNat % 2 ^ n) !=
          invert) := by
  induction n with
  | zero =>
      refine ⟨boolUnum (!invert), rfl, rfl, fun env base => ?_⟩
      rw [Data.eval_boolUnum, Nat.pow_zero, Nat.mod_one, Nat.mod_one]
      cases invert <;> rfl
  | succ i ih =>
      obtain ⟨test, hlink, htest, htesteval⟩ := leBitLink_spec ha c invert hn
      obtain ⟨rest, hrest, hequal, heval⟩ := ih (Nat.le_of_succ_le hn)
      refine ⟨_, by rw [buildLeBit, hlink, hrest]; rfl, ?_, fun env base => ?_⟩
      · exact equalities_op (by unfold leBitOp; split <;> rfl) htest hequal _
      · have hv := htesteval env base
        have hlow := heval env base
        rw [BitOrder.mod_le_succ]
        unfold leBitOp
        rw [getBit_eq c hn]
        generalize (a.num env.packet base).testBit i = vbit at hv ⊢
        generalize decide (a.num env.packet base % 2 ^ i ≤ c.toNat % 2 ^ i) =
          low at hlow ⊢
        cases c.toNat.testBit i <;> cases invert <;>
          simp only [reduceCtorEq, if_true, if_false, Bool.false_eq_true,
            Data.eval_logicalAnd, Data.eval_logicalOr, hv, hlow] <;>
          cases vbit <;> rfl

end

private theorem relGeneralNode_row (prefixes : Bool) {dsc : OpDsc}
    {row : RelRow} (hrow : relRow dsc = some row) {a c : Data}
    (hc : c.isConstant = true) (ha : a.isOp = true) (t : DataType) :
    relGeneralNode prefixes (.op dsc t a c .none) =
      if row.known c.convertIpv6 then .ok (boolUnum row.constRes)
      else if prefixes then
        buildLtPrefix a (row.prefixConstant c.convertIpv6) (accMask a)
          row.invert
      else
        buildLeBit a (row.bitConstant c.convertIpv6) (accMask a)
          row.invert 128 := by
  simp only [relGeneralNode, hrow, buildRel, hc, ha, Bool.true_eq_false,
    if_false]

private theorem exists_relRow {dsc : OpDsc} (h : dsc.ordering = true) :
    ∃ row, relRow dsc = some row := by
  cases dsc with
  | gt | ge | lt | le => exact ⟨_, rfl⟩
  | _ => cases h

private theorem ordering_of_row {dsc : OpDsc} {row : RelRow}
    (h : relRow dsc = some row) : dsc.ordering = true := by
  cases dsc <;> first | rfl | cases h

private theorem eval_ordering {dsc : OpDsc} (h : dsc.ordering = true)
    {a c : Data} (hc : c.isConstant = true) (env : Env) (base : Base) :
    (Data.op dsc .unum a c .none).eval env base =
      .truth (relOp dsc (a.num env.packet base) c.convertIpv6.toNat) := by
  rw [Data.eval_relational (OpDsc.relational_of_ordering h),
    Data.convertIpv6_toNat hc env.packet base]

theorem mem_prefixBits {c mask : U128} {invert : Bool} {i : Nat} :
    i ∈ prefixBits c mask invert ↔ i < 128 ∧ c.toNat.testBit i ≠ invert ∧
      (mask.toNat.testBit i = true ∨ c.toNat.testBit i = true) := by
  rw [prefixBits, List.mem_filter, List.mem_range]
  refine and_congr_right fun hi => ?_
  rw [getBit_eq c hi, getBit_eq mask hi, Bool.and_eq_true, bne_iff_ne,
    Bool.or_eq_true]

/-- Nothing is left to be tested. -/
theorem prefixBits_eq_nil {c mask : U128} {invert : Bool} :
    prefixBits c mask invert = [] ↔
      if invert then mask.toNat &&& c.toNat = mask.toNat
      else c.toNat = 0 := by
  rw [List.eq_nil_iff_forall_not_mem]
  simp only [mem_prefixBits]
  cases invert with
  | true =>
      rw [if_pos rfl, BitOrder.and_eq_left_iff]
      refine forall_congr' fun i => ?_
      constructor
      · intro h hi
        by_contra hc
        exact h ⟨lt_of_testBit mask.toNat_lt hi, hc, .inl hi⟩
      · rintro h ⟨-, hc, hmask | hset⟩
        · exact hc (h hmask)
        · exact hc hset
  | false =>
      rw [if_neg Bool.false_ne_true]
      constructor
      · intro h
        apply Nat.eq_of_testBit_eq
        intro i
        rw [Nat.zero_testBit, ← Bool.not_eq_true]
        intro hi
        refine h i ⟨lt_of_testBit c.toNat_lt hi, ?_, .inr hi⟩
        rw [hi]
        nofun
      · rintro h i ⟨-, hc, -⟩
        rw [h, Nat.zero_testBit] at hc
        exact hc rfl

/-- A test for a prefix. -/
def PrefixTest (a d : Data) : Prop :=
  ∃ n k, IsMaskTest a (bitMask n) (prefixAndTwist k n) d

theorem equalities_disjunction {ds : List Data}
    (h : ∀ d ∈ ds, equalities d = true) : equalities (disjunction ds) = true := by
  induction ds with
  | nil => rfl
  | cons d ds ih =>
      have hd := h d (.head ds)
      have hds := ih fun e he => h e (.tail d he)
      cases ds with
      | nil => exact hd
      | cons => exact equalities_op rfl hd hds .unum

section

variable {a : Data} (ha : Operand a) (k : U128) {invert : Bool}
include ha

/-- The highest bit that differs is at one of the places. -/
private theorem any_prefixBits (packet : Packet) (base : Base) :
    ((prefixBits k (accMask a) invert).any fun i => decide
        (a.num packet base &&& (bitMask i).convertIpv6.toNat =
          (prefixAndTwist k i).convertIpv6.toNat)) = true ↔
      if invert then k.toNat < a.num packet base
      else a.num packet base < k.toNat := by
  have hlt := ha.lt packet base
  simp only [List.any_eq_true, decide_eq_true_eq, mem_prefixBits]
  cases invert with
  | true =>
      rw [if_pos rfl, BitOrder.lt_iff_highest]
      refine exists_congr fun i => ?_
      constructor
      · rintro ⟨⟨hi, hk, -⟩, htest⟩
        rw [prefixAndTwist_iff hlt k hi] at htest
        rw [ne_eq, Bool.not_eq_true] at hk
        rw [hk, ne_eq, Bool.not_eq_false] at htest
        exact ⟨hk, htest.1, htest.2.symm⟩
      · rintro ⟨hk, hv, hhigh⟩
        have hi := lt_of_testBit hlt hv
        rw [prefixAndTwist_iff hlt k hi, hk, hv]
        exact ⟨⟨hi, nofun, .inl (testBit_accMask ha packet base hv)⟩, nofun,
          hhigh.symm⟩
  | false =>
      rw [if_neg Bool.false_ne_true, BitOrder.lt_iff_highest]
      refine exists_congr fun i => ?_
      constructor
      · rintro ⟨⟨hi, hk, -⟩, htest⟩
        rw [prefixAndTwist_iff hlt k hi] at htest
        rw [ne_eq, Bool.not_eq_false] at hk
        rw [hk, ne_eq, Bool.not_eq_true] at htest
        exact ⟨htest.1, hk, htest.2⟩
      · rintro ⟨hv, hk, hhigh⟩
        have hi := lt_of_testBit k.toNat_lt hk
        rw [prefixAndTwist_iff hlt k hi, hk, hv]
        exact ⟨⟨hi, nofun, .inr rfl⟩, nofun, hhigh⟩

private theorem buildLtPrefix_spec
    (hne : prefixBits k (accMask a) invert ≠ []) :
    ∃ ds, ds ≠ [] ∧
      buildLtPrefix a k (accMask a) invert = .ok (disjunction ds) ∧
      (∀ d ∈ ds, PrefixTest a d) ∧ equalities (disjunction ds) = true ∧
      ∀ env base, ∃ value, (disjunction ds).eval env base = .truth value ∧
        (value = true ↔ if invert then k.toNat < a.num env.packet base
          else a.num env.packet base < k.toNat) := by
  obtain ⟨ds, hds, hchain, hform, heval⟩ := buildOr_tests ha
    (fun n => (rfl : (bitMask n).isConstant = true))
    (fun n => (rfl : (prefixAndTwist k n).isConstant = true)) hne
  refine ⟨ds, hds, hchain, ?_, ?_, ?_⟩
  · intro d hd
    obtain ⟨i, hi⟩ := hform d hd
    exact ⟨i, k, hi⟩
  · apply equalities_disjunction
    intro d hd
    obtain ⟨i, hi⟩ := hform d hd
    exact equalities_maskTest ha rfl rfl hi
  · intro env base
    exact ⟨_, heval env base, any_prefixBits ha k env.packet base⟩

end

/-- The result is a disjunction of prefix tests, or a constant, and ends up
with the value of before on every packet. -/
def RelGeneralPrefixes (dsc : OpDsc) (a c : Data) : Prop :=
  ∃ e, RelGeneralEnds true (.op dsc .unum a c .none) e ∧
    ((∃ value, e = boolUnum value) ∨
      ∃ ds, ds ≠ [] ∧ e = disjunction ds ∧ ∀ d ∈ ds, PrefixTest a d) ∧
    ∀ env base,
      e.eval env base = (Data.op dsc .unum a c .none).eval env base

section

variable {dsc : OpDsc} {row : RelRow} (hrow : relRow dsc = some row)
  {a c : Data} (ha : Operand a) (hc : c.isConstant = true)
include hrow ha hc

private theorem relGeneral_assertion
    (hknown : row.known c.convertIpv6 = false)
    (hnil : prefixBits (row.prefixConstant c.convertIpv6) (accMask a)
      row.invert = []) (fuel : Nat) :
    relGeneral true (fuel + 1) (.op dsc .unum a c .none) =
      .error (.assertion "d.type != dt_none") := by
  have hnode := relGeneralNode_row true hrow hc ha.isOp .unum
  rw [hknown, if_neg Bool.false_ne_true, if_pos rfl, buildLtPrefix, hnil,
    buildOr_nil] at hnode
  rw [relGeneral, hnode]
  rfl

/-- Prefixes are right unless there is none. -/
private theorem relGeneralPrefixes_iff :
    RelGeneralPrefixes dsc a c ↔ ¬(row.known c.convertIpv6 = false ∧
      prefixBits (row.prefixConstant c.convertIpv6) (accMask a)
        row.invert = []) := by
  have hdsc := ordering_of_row hrow
  have hnode := relGeneralNode_row true hrow hc ha.isOp .unum
  constructor
  · rintro ⟨e, ⟨n, hn⟩, -⟩ ⟨hknown, hnil⟩
    have hok := hn (n + 1) (Nat.le_succ n)
    rw [relGeneral_assertion hrow ha hc hknown hnil] at hok
    cases hok
  intro h
  cases hknown : row.known c.convertIpv6 with
  | true =>
      rw [if_pos hknown] at hnode
      refine ⟨_, relGeneral_ends hnode rfl, .inl ⟨_, rfl⟩, fun env base => ?_⟩
      rw [eval_ordering hdsc hc, Data.eval_boolUnum,
        relOp_known hrow _ (ha.lt env.packet base) hknown]
  | false =>
      have hne := fun hnil => h ⟨hknown, hnil⟩
      rw [hknown, if_neg Bool.false_ne_true, if_pos rfl] at hnode
      obtain ⟨ds, hds, hbuild, hform, hequal, heval⟩ :=
        buildLtPrefix_spec ha (row.prefixConstant c.convertIpv6) hne
      refine ⟨_, relGeneral_ends (hnode.trans hbuild)
        (equalOperands_of_equalities hequal),
        .inr ⟨ds, hds, rfl, hform⟩, fun env base => ?_⟩
      obtain ⟨value, hvalue, hiff⟩ := heval env base
      rw [hvalue, eval_ordering hdsc hc, Eval.truth_inj, Bool.eq_iff_iff,
        hiff, relOp_prefixes hrow _ hknown]

end

/-- Of a comparison only tests with `==` are left. -/
theorem relGeneral_equalities {prefixes : Bool} {dsc : OpDsc}
    (hdsc : dsc.ordering = true) {a c e : Data} (ha : Operand a)
    (hc : c.isConstant = true)
    (h : RelGeneralEnds prefixes (.op dsc .unum a c .none) e) :
    equalities e = true := by
  obtain ⟨row, hrow⟩ := exists_relRow hdsc
  have hnode := relGeneralNode_row prefixes hrow hc ha.isOp .unum
  cases hknown : row.known c.convertIpv6 with
  | true =>
      rw [if_pos hknown] at hnode
      rw [h.unique (relGeneral_ends hnode rfl)]
      rfl
  | false =>
      rw [hknown, if_neg Bool.false_ne_true] at hnode
      cases prefixes with
      | false =>
          obtain ⟨d, hd, hequal, -⟩ := buildLeBit_spec ha
            (row.bitConstant c.convertIpv6) row.invert (Nat.le_refl 128)
          rw [h.unique (relGeneral_ends (hnode.trans hd)
            (equalOperands_of_equalities hequal))]
          exact hequal
      | true =>
          by_cases hnil : prefixBits (row.prefixConstant c.convertIpv6)
              (accMask a) row.invert = []
          · obtain ⟨n, hn⟩ := h
            have hok := hn (n + 1) (Nat.le_succ n)
            rw [relGeneral_assertion hrow ha hc hknown hnil] at hok
            cases hok
          · obtain ⟨ds, -, hd, -, hequal, -⟩ :=
              buildLtPrefix_spec ha (row.prefixConstant c.convertIpv6) hnil
            rw [h.unique (relGeneral_ends (hnode.trans hd)
              (equalOperands_of_equalities hequal))]
            exact hequal

private theorem prefixBits_eq_nil_iff {dsc : OpDsc} {row : RelRow}
    (hrow : relRow dsc = some row) {mask k : U128}
    (hle : k.toNat ≤ mask.toNat) :
    (row.known k = false ∧
        prefixBits (row.prefixConstant k) mask row.invert = []) ↔
      dsc = .gt ∧ k.toNat = mask.toNat ∧ k.toNat ≠ 2 ^ 128 - 1 := by
  rw [← Bool.not_eq_true, RelRow.known_iff, prefixBits_eq_nil]
  cases dsc with
  | le =>
      cases hrow
      refine iff_of_false ?_ (fun h => nomatch h.1)
      rintro ⟨hk, hnil⟩
      simp only [RelRow.prefixConstant, Bool.false_eq_true, if_false,
        if_true] at hk hnil
      rw [U128.toNat_add32_one hk] at hnil
      omega
  | lt =>
      cases hrow
      refine iff_of_false ?_ (fun h => nomatch h.1)
      rintro ⟨hk, hnil⟩
      exact hk hnil
  | ge =>
      cases hrow
      refine iff_of_false ?_ (fun h => nomatch h.1)
      rintro ⟨hk, hnil⟩
      simp only [RelRow.prefixConstant, if_true] at hk hnil
      -- all bits of the mask would be below the constant
      have hmask := Nat.le_trans (Nat.le_of_eq hnil.symm) Nat.and_le_right
      rw [U128.toNat_sub32_one hk] at hmask
      omega
  | gt =>
      cases hrow
      simp only [RelRow.prefixConstant, Bool.false_eq_true, if_false,
        if_true, true_and]
      constructor
      · rintro ⟨hk, hnil⟩
        have hmask := Nat.le_trans (Nat.le_of_eq hnil.symm) Nat.and_le_right
        exact ⟨Nat.le_antisymm hle hmask, hk⟩
      · rintro ⟨heq, hk⟩
        exact ⟨hk, by rw [heq, Nat.and_self]⟩
  | _ => cases hrow

/-- Prefixes are right for all relations, only not for `>` and the largest
number under the mask: nothing is greater, and there is no test for that. -/
theorem relGeneral_prefixes_iff {dsc : OpDsc} (hdsc : dsc.ordering = true)
    {x m c : Data} (hx : x.numeric = true)
    (hlt : ∀ packet base, x.num packet base < 2 ^ 128)
    (hm : m.isConstant = true) (hc : c.isConstant = true)
    (hle : c.convertIpv6.toNat ≤ m.convertIpv6.toNat) {t : DataType}
    (ht : t = .unum ∨ t = .ipv6) :
    RelGeneralPrefixes dsc (.op .and t x m .none) c ↔
      ¬(dsc = .gt ∧ c.convertIpv6.toNat = m.convertIpv6.toNat ∧
        c.convertIpv6.toNat ≠ 2 ^ 128 - 1) := by
  obtain ⟨row, hrow⟩ := exists_relRow hdsc
  rw [relGeneralPrefixes_iff hrow (Operand.masked hx hm hlt ht) hc,
    accMask_masked hm, prefixBits_eq_nil_iff hrow hle]

/-- `X & 0xf0 > 0x30` for a byte. -/
theorem relGeneral_prefixes_byte :
    RelGeneralPrefixes .gt
      (.op .and .unum (packetAccess .unum 0 0 8) (.unum 0xf0) .none)
      (.unum 0x30) :=
  (relGeneral_prefixes_iff rfl rfl
    (fun packet base => Nat.lt_of_lt_of_le
      ((spans_packetAccess (.inl rfl) 0 0 8).lt packet base) (by decide))
    rfl rfl (by decide) (.inl rfl)).mpr fun h => absurd h.2.1 (by decide)

/-- `X & 0xf0 > 0xf0` -/
theorem relGeneral_prefixes_none :
    ¬∀ dsc x m c, dsc.ordering = true → x.numeric = true →
      (∀ packet base, x.num packet base < 2 ^ 128) →
      m.isConstant = true → c.isConstant = true →
      c.convertIpv6.toNat ≤ m.convertIpv6.toNat →
      RelGeneralPrefixes dsc (.op .and .unum x m .none) c := by
  intro h
  have hlt : ∀ packet base,
      (packetAccess .unum 0 0 8).num packet base < 2 ^ 128 :=
    fun packet base => Nat.lt_of_lt_of_le
      ((spans_packetAccess (.inl rfl) 0 0 8).lt packet base) (by decide)
  have hkeeps := h .gt (packetAccess .unum 0 0 8) (.unum 0xf0) (.unum 0xf0)
    rfl rfl hlt rfl rfl (Nat.le_refl _)
  have hrow : relRow .gt = some ⟨true, false, false, false⟩ := rfl
  rw [relGeneralPrefixes_iff hrow (Operand.masked rfl rfl hlt (.inl rfl)) rfl,
    accMask_masked rfl, prefixBits_eq_nil_iff hrow (Nat.le_refl _)] at hkeeps
  exact hkeeps ⟨rfl, rfl, by decide⟩

end Tcng
