import Tcng.Semantics

/-! The shapes of if-expressions: a formula joins tests, policing operators and
decisions by logical operators. -/

namespace Tcng

open ShortCircuit

def OpDsc.relational : OpDsc → Bool
  | .eq | .ne | .gt | .ge | .lt | .le => true
  | _ => false

/-- The relations that compare by order. -/
def OpDsc.ordering : OpDsc → Bool
  | .gt | .ge | .lt | .le => true
  | _ => false

def OpDsc.arithmetic : OpDsc → Bool
  | .plus | .minus | .unaryMinus | .mult | .div | .mod | .not | .and | .or
  | .xor | .shiftLeft | .shiftRight | .access | .offset | .fieldRoot => true
  | _ => false

theorem OpDsc.relational_of_ordering {dsc : OpDsc}
    (h : dsc.ordering = true) : dsc.relational = true := by
  revert h
  cases dsc <;> decide

theorem OpDsc.not_relational {dsc : OpDsc} (h : dsc.arithmetic = true) :
    ¬dsc.relational = true := by
  revert h
  cases dsc <;> decide

namespace Data

/-- Built from constants and packet accesses by arithmetic only. -/
def numeric : Data → Bool
  | police _ | decision _ => false
  | op dsc _ a b c => dsc.arithmetic && (a.numeric && b.numeric && c.numeric)
  | _ => true

theorem isConstant_numeric {d : Data} (h : d.isConstant = true) :
    d.numeric = true := by
  cases d <;> first | contradiction | rfl

/-- A relation between two numeric expressions. -/
def isTest : Data → Bool
  | op dsc .unum x k none => dsc.relational && (x.numeric && k.numeric)
  | _ => false

/-- `dsc` occurs somewhere in the tree. -/
def contains (dsc : OpDsc) : Data → Bool
  | op dsc' _ a b c =>
      dsc' == dsc || (a.contains dsc || b.contains dsc || c.contains dsc)
  | _ => false

theorem contains_numeric {d : Data} (h : d.numeric = true) {dsc : OpDsc}
    (hdsc : dsc.arithmetic = false) : d.contains dsc = false := by
  induction d with
  | op dsc' t a b c iha ihb ihc =>
      simp only [numeric, Bool.and_eq_true] at h
      obtain ⟨hop, ⟨ha, hb⟩, hc⟩ := h
      have hne : dsc' ≠ dsc := by
        rintro rfl
        rw [hop] at hdsc
        cases hdsc
      simp [contains, hne, iha ha, ihb hb, ihc hc]
  | _ => rfl

theorem isTest_cases {d : Data} (h : d.isTest = true) :
    ∃ dsc x k, d = .op dsc .unum x k .none ∧ dsc.relational = true ∧
      x.numeric = true ∧ k.numeric = true := by
  match d with
  | .op dsc .unum x k .none =>
      simp only [isTest, Bool.and_eq_true] at h
      exact ⟨dsc, x, k, rfl, h.1, h.2.1, h.2.2⟩

theorem eval_relational {dsc : OpDsc} (h : dsc.relational = true)
    (t : DataType) (a b c : Data) (env : Env) (base : Base) :
    (op dsc t a b c).eval env base =
      .truth (relOp dsc (a.num env.packet base) (b.num env.packet base)) := by
  cases dsc <;> first
    | contradiction
    | simp [eval, num, numOp]

end Data

/-- Which leaves and operators a formula may have. -/
structure Vocabulary where
  test : Data → Prop
  isTest : ∀ {d}, test d → d.isTest = true
  negation : Prop
  count : Prop
  constant : Prop

/-- Formulas over all tests, without negation, counting and constants. -/
def Vocabulary.plain : Vocabulary where
  test d := d.isTest = true
  isTest h := h
  negation := False
  count := False
  constant := False

/-- Formulas that may count, without negation and constants. -/
def Vocabulary.counting : Vocabulary :=
  { plain with count := True }

inductive Formula (v : Vocabulary) : Data → Prop
  | test {d : Data} (h : v.test d) : Formula v d
  | decision (d : Decision) : Formula v (.decision d)
  | conform (p : Bucket) : Formula v (.conform p)
  | count (h : v.count) (p : Bucket) : Formula v (.count p)
  | constant (h : v.constant) (n : BitVec 32) : Formula v (.unum n)
  | not (h : v.negation) {a : Data} (ha : Formula v a) :
      Formula v (.logicalNot a)
  | and {a b : Data} (ha : Formula v a) (hb : Formula v b) :
      Formula v (.logicalAnd a b)
  | or {a b : Data} (ha : Formula v a) (hb : Formula v b) :
      Formula v (.logicalOr a b)

/-- A vocabulary within another one. -/
structure Vocabulary.Within (v w : Vocabulary) : Prop where
  test : ∀ {d}, v.test d → w.test d
  negation : v.negation → w.negation
  count : v.count → w.count
  constant : v.constant → w.constant

theorem Formula.mono {v w : Vocabulary} (hvw : v.Within w) {d : Data}
    (h : Formula v d) : Formula w d := by
  induction h with
  | test h => exact .test (hvw.test h)
  | decision d => exact .decision d
  | conform p => exact .conform p
  | count h p => exact .count (hvw.count h) p
  | constant h n => exact .constant (hvw.constant h) n
  | not h _ iha => exact .not (hvw.negation h) iha
  | and _ _ iha ihb => exact .and iha ihb
  | or _ _ iha ihb => exact .or iha ihb

/-! Formulas have a type which `&&` and `||` accept. -/

def Data.logical (d : Data) : Bool := integerNumber d || d.type == .decision

theorem Formula.logical {v : Vocabulary} {d : Data} (h : Formula v d) :
    d.logical = true := by
  cases h with
  | test h =>
      obtain ⟨dsc, x, k, rfl, _⟩ := Data.isTest_cases (v.isTest h)
      rfl
  | _ => rfl

/-- Nothing is folded where there are no constants. -/
theorem Formula.isOp_or_decision {v : Vocabulary} (hv : ¬v.constant)
    {d : Data} (h : Formula v d) : d.isOp = true ∨ d.type = .decision := by
  cases h with
  | test h =>
      obtain ⟨dsc, x, k, rfl, _⟩ := Data.isTest_cases (v.isTest h)
      exact .inl rfl
  | decision d => exact .inr rfl
  | constant h => exact absurd h hv
  | _ => exact .inl rfl

theorem andOrEval_op {dsc : OpDsc} {a b : Data} (ha : a.logical = true)
    (hb : b.logical = true)
    (hop : a.isOp = true ∨ b.isOp = true ∨ a.type = .decision ∨
      b.type = .decision) :
    andOrEval dsc a b = .ok (.op dsc .unum a b .none) := by
  unfold andOrEval
  have hna : (!integerNumber a && a.type != .decision) = false := by
    rw [← Bool.not_eq_true]
    simp only [Data.logical, Bool.or_eq_true, beq_iff_eq] at ha
    rintro h
    simp only [Bool.and_eq_true, Bool.not_eq_true', bne_iff_ne] at h
    rcases ha with ha | ha
    · simp [ha] at h
    · exact h.2 ha
  have hnb : (!integerNumber b && b.type != .decision) = false := by
    rw [← Bool.not_eq_true]
    simp only [Data.logical, Bool.or_eq_true, beq_iff_eq] at hb
    rintro h
    simp only [Bool.and_eq_true, Bool.not_eq_true', bne_iff_ne] at h
    rcases hb with hb | hb
    · simp [hb] at h
    · exact h.2 hb
  rw [if_neg (by simp [hna]), if_neg (by simp [hnb])]
  rcases hop with h | h | h | h
  · split
    · rfl
    · rw [if_pos (by simp [h])]
  · split
    · rfl
    · rw [if_pos (by simp [h])]
  · rw [if_pos (by simp [h])]
  · rw [if_pos (by simp [h])]

theorem Formula.andOrEval {v : Vocabulary} (hv : ¬v.constant) {a b : Data}
    (ha : Formula v a) (hb : Formula v b) (dsc : OpDsc) :
    andOrEval dsc a b = .ok (.op dsc .unum a b .none) := by
  apply andOrEval_op ha.logical hb.logical
  rcases ha.isOp_or_decision hv with h | h
  · exact .inl h
  · exact .inr (.inr (.inl h))

private theorem decide_ne_zero (n : BitVec 32) :
    decide (n ≠ 0) = (n != 0) := by
  rw [Bool.eq_iff_iff, decide_eq_true_iff, bne_iff_ne]

private theorem eval_constantTruth {d : Data} (h : integerNumber d = true)
    (hop : d.isOp = false) (env : Env) (base : Base) :
    d.eval env base = .truth (constantTruth d) := by
  cases d with
  | unum n =>
      rw [Data.eval_unum, decide_ne_zero]
      rfl
  | ipv4 n =>
      have hzero : n.toNat ≠ 0 ↔ n ≠ 0 := by simp [← BitVec.toNat_inj]
      simp only [Data.eval, Data.num, hzero, decide_ne_zero]
      rfl
  | ipv6 n =>
      have hzero := n.isZero_iff
      simp only [Data.eval, Data.num, constantTruth]
      by_cases hn : n.toNat = 0
      · simp [hn, hzero.mpr hn]
      · have hfalse : n.isZero = false := by
          rw [← Bool.not_eq_true, hzero]
          exact hn
        simp [hn, hfalse]
  | op => cases hop
  | _ => cases h

@[simp] theorem Data.eval_boolUnum (value : Bool) (env : Env) (base : Base) :
    (boolUnum value).eval env base = .truth value := by
  cases value <;> simp [boolUnum]

private theorem integerNumber_of_checks {a : Data}
    (h : ¬(!integerNumber a && a.type != .decision) = true)
    (hdec : a.type ≠ .decision) : integerNumber a = true := by
  simp only [Bool.and_eq_true, Bool.not_eq_true', bne_iff_ne, not_and,
    not_not] at h
  cases hint : integerNumber a with
  | true => rfl
  | false => exact absurd (h hint) hdec

/-- Folding constants does not change the meaning of `&&`. -/
theorem eval_andEval {a b d : Data} (h : andOrEval .logicalAnd a b = .ok d)
    (env : Env) (base : Base) :
    d.eval env base = (a.eval env base).and (b.eval env base) := by
  unfold andOrEval at h
  split at h
  · cases h
  rename_i hna
  split at h
  · cases h
  rename_i hnb
  split at h
  · cases h
    rw [Data.eval_logicalAnd]
  rename_i hdec
  simp only [Bool.or_eq_true, beq_iff_eq, not_or] at hdec
  split at h
  · cases h
    rw [Data.eval_logicalAnd]
  rename_i hop
  simp only [Bool.or_eq_true, not_or, Bool.not_eq_true] at hop
  simp only [if_true, Except.ok.injEq] at h
  subst h
  rw [eval_constantTruth (integerNumber_of_checks hna hdec.1) hop.1,
    eval_constantTruth (integerNumber_of_checks hnb hdec.2) hop.2,
    Data.eval_boolUnum]
  cases constantTruth a <;> rfl

/-- Folding constants does not change the meaning of `||`. -/
theorem eval_orEval {a b d : Data} (h : andOrEval .logicalOr a b = .ok d)
    (env : Env) (base : Base) :
    d.eval env base = (a.eval env base).or (b.eval env base) := by
  unfold andOrEval at h
  split at h
  · cases h
  rename_i hna
  split at h
  · cases h
  rename_i hnb
  split at h
  · cases h
    rw [Data.eval_logicalOr]
  rename_i hdec
  simp only [Bool.or_eq_true, beq_iff_eq, not_or] at hdec
  split at h
  · cases h
    rw [Data.eval_logicalOr]
  rename_i hop
  simp only [Bool.or_eq_true, not_or, Bool.not_eq_true] at hop
  simp only [reduceCtorEq, if_false, Except.ok.injEq] at h
  subst h
  rw [eval_constantTruth (integerNumber_of_checks hna hdec.1) hop.1,
    eval_constantTruth (integerNumber_of_checks hnb hdec.2) hop.2,
    Data.eval_boolUnum]
  cases constantTruth a <;> rfl

end Tcng
