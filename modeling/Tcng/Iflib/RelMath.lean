import Tcng.Formula
import Tcng.Iflib.MulDivModSound
import Tcng.Lib.ModOrder

/-! Constants are moved across relations (`rel_math` of `iflib_arith.c`). -/

namespace Tcng

/-- The relation as it is read from the other side. -/
def swapRel : OpDsc → OpDsc
  | .gt => .lt
  | .lt => .gt
  | .ge => .le
  | .le => .ge
  | dsc => dsc

/-- The difference of two constants. -/
def constantSub (a b : Data) : Data :=
  match a, b with
  | .unum m, .unum n => .unum (m - n)
  | a, b => .ipv6 (a.convertIpv6.sub b.convertIpv6)

def constantAdd (a b : Data) : Data :=
  match a, b with
  | .unum m, .unum n => .unum (m + n)
  | a, b => .ipv6 (a.convertIpv6.add b.convertIpv6)

/-- `rel_plus` on the operands of a test `p + q rel b`. -/
def relPlus (p q b : Data) : Option (Data × Data) :=
  if p.isConstant then some (q, constantSub b p)
  else if q.isConstant then some (p, constantSub b q)
  else none

/-- `rel_minus` on the operands of a test `p - q rel b`. -/
def relMinus (p q b : Data) : Option (Data × Data) :=
  if p.isConstant then some (q, constantSub p b)
  else if q.isConstant then some (p, constantAdd b q)
  else none

/-- A test with a sum or a difference on the left and a constant on the right
is done once its constants are moved, if there are any; `none` where the
operands are to be looked at. -/
def relMove (dsc : OpDsc) (t : DataType) (a b c : Data) : Option Data :=
  match a with
  | .op .plus _ p q _ =>
      if b.isConstant then
        match relPlus p q b with
        | some (x, b) => some (.op dsc t x b c)
        | none => some (.op dsc t a b c)
      else none
  | .op .minus _ p q _ =>
      if b.isConstant then
        match relMinus p q b with
        | some (x, b) => some (.op dsc t x b c)
        | none => some (.op dsc t a b c)
      else none
  | _ => none

def relMath : Data → Except Error Data
  | .op dsc t a b c =>
      if dsc.relational then
        if a.isConstant ∧ b.isConstant then relData dsc a b
        else if a.isConstant ∧ b.isOp then
          match relMove (swapRel dsc) t b a c with
          | some d => .ok d
          | none => do
              let x ← relMath b
              let y ← relMath a
              let z ← relMath c
              return .op (swapRel dsc) t x y z
        else
          match relMove dsc t a b c with
          | some d => .ok d
          | none => do
              let x ← relMath a
              let y ← relMath b
              let z ← relMath c
              return .op dsc t x y z
      else do
        let x ← relMath a
        let y ← relMath b
        let z ← relMath c
        return .op dsc t x y z
  | d => .ok d

/-- Nothing in an arithmetic expression is a relation. -/
theorem relMath_numeric {d : Data} (h : d.numeric = true) :
    relMath d = .ok d := by
  induction d with
  | op dsc t a b c iha ihb ihc =>
      simp only [Data.numeric, Bool.and_eq_true] at h
      obtain ⟨hdsc, ⟨ha, hb⟩, hc⟩ := h
      rw [relMath, if_neg (OpDsc.not_relational hdsc), iha ha, ihb hb, ihc hc]
      rfl
  | _ => rfl

namespace Arith

open Op

variable {assign : Assignment}

/-! ## What is moved -/

/-- `x rel n` becomes `y rel m`. -/
inductive Moved (n : BitVec 32) : Data → Data → BitVec 32 → Prop
  | plusLeft {t c y z} : Moved n (.op .plus t (.unum c) y z) y (n - c)
  | plusRight {t c y z} (hy : y.isConstant = false) :
      Moved n (.op .plus t y (.unum c) z) y (n - c)
  | minusLeft {t c y z} : Moved n (.op .minus t (.unum c) y z) y (c - n)
  | minusRight {t c y z} (hy : y.isConstant = false) :
      Moved n (.op .minus t y (.unum c) z) y (n + c)

/-- There is nothing to move in `x`. -/
inductive MoveFree : Data → Prop
  | of_leaf {x} (h : x.isOp = false) : MoveFree x
  | of_operator {dsc t p q z} (hplus : dsc ≠ .plus) (hminus : dsc ≠ .minus) :
      MoveFree (.op dsc t p q z)
  | of_operands {dsc t p q z} (hp : ¬p.isConstant = true)
      (hq : ¬q.isConstant = true) : MoveFree (.op dsc t p q z)

/-- A constant with a value has 32 bits. -/
private theorem constant_unum {d : Data} {v : Number}
    (h : d.isConstant = true) (hv : evaluate assign d = .ok v) :
    ∃ n, d = .unum n := by
  cases d with
  | unum n => exact ⟨n, rfl⟩
  | ipv6 => cases hv
  | _ => cases h

/-- The operands of a sum or a difference have values, which are added or
subtracted. -/
private theorem evaluate_additive {dsc : OpDsc} {t : DataType}
    {a b c : Data} {v : Number} (hdsc : dsc = .plus ∨ dsc = .minus)
    (h : evaluate assign (.op dsc t a b c) = .ok v) :
    ∃ x y, evaluate assign a = .ok x ∧ evaluate assign b = .ok y ∧
      v.unum = if dsc = .plus then x.unum + y.unum else x.unum - y.unum := by
  have hoperands : c = .none ∧ ∃ x y, evaluate assign a = .ok x ∧
      evaluate assign b = .ok y ∧ binaryEval dsc x y = .ok v := by
    rcases hdsc with rfl | rfl <;>
      exact evaluate_operands (fun h => nomatch h) (fun _ _ h => nomatch h) h
  obtain ⟨-, x, y, hx, hy, hv⟩ := hoperands
  refine ⟨x, y, hx, hy, ?_⟩
  have hadd : additiveEval dsc x y = .ok v := by
    rcases hdsc with rfl | rfl <;> exact hv
  unfold additiveEval at hadd
  split at hadd
  · rename_i hzero
    cases hadd
    simp [hzero.2]
  split at hadd
  · rename_i hzero
    cases hadd
    simp [hzero.1, hzero.2.2]
  split at hadd <;> rename_i hplus
  · cases hadd
    rw [if_pos hplus]
  · cases hadd
    rw [if_neg hplus]

/-- What becomes of a test whose left side has a value. -/
private theorem relMove_cases {x : Data} {v : Number} {n : BitVec 32}
    (hv : evaluate assign x = .ok v) (dsc : OpDsc) (t : DataType)
    (c : Data) :
    (∃ y m, Moved n x y m ∧
        relMove dsc t x (.unum n) c = some (.op dsc t y (.unum m) c)) ∨
      (MoveFree x ∧ (relMove dsc t x (.unum n) c = none ∨
        relMove dsc t x (.unum n) c = some (.op dsc t x (.unum n) c))) := by
  cases x with
  | op dsc' t' p q z =>
      by_cases hplus : dsc' = .plus
      · subst hplus
        obtain ⟨_, _, hp, hq, -⟩ := evaluate_additive (.inl rfl) hv
        by_cases hpc : p.isConstant = true
        · obtain ⟨k, rfl⟩ := constant_unum hpc hp
          exact .inl ⟨q, n - k, .plusLeft, rfl⟩
        by_cases hqc : q.isConstant = true
        · obtain ⟨k, rfl⟩ := constant_unum hqc hq
          have hstep : relPlus p (.unum k) (.unum n) =
              some (p, .unum (n - k)) := (if_neg hpc).trans (if_pos rfl)
          refine .inl ⟨p, n - k, .plusRight (Bool.not_eq_true _ ▸ hpc), ?_⟩
          simp only [relMove, hstep]
          rfl
        · have hstep : relPlus p q (.unum n) = none :=
            (if_neg hpc).trans (if_neg hqc)
          refine .inr ⟨.of_operands hpc hqc, .inr ?_⟩
          simp only [relMove, hstep]
          rfl
      by_cases hminus : dsc' = .minus
      · subst hminus
        obtain ⟨_, _, hp, hq, -⟩ := evaluate_additive (.inr rfl) hv
        by_cases hpc : p.isConstant = true
        · obtain ⟨k, rfl⟩ := constant_unum hpc hp
          exact .inl ⟨q, k - n, .minusLeft, rfl⟩
        by_cases hqc : q.isConstant = true
        · obtain ⟨k, rfl⟩ := constant_unum hqc hq
          have hstep : relMinus p (.unum k) (.unum n) =
              some (p, .unum (n + k)) := (if_neg hpc).trans (if_pos rfl)
          refine .inl ⟨p, n + k, .minusRight (Bool.not_eq_true _ ▸ hpc), ?_⟩
          simp only [relMove, hstep]
          rfl
        · have hstep : relMinus p q (.unum n) = none :=
            (if_neg hpc).trans (if_neg hqc)
          refine .inr ⟨.of_operands hpc hqc, .inr ?_⟩
          simp only [relMove, hstep]
          rfl
      · refine .inr ⟨.of_operator hplus hminus, .inl ?_⟩
        unfold relMove
        split
        · rename_i heq
          cases heq
          exact absurd rfl hplus
        · rename_i heq
          cases heq
          exact absurd rfl hminus
        · rfl
  | _ => exact .inr ⟨.of_leaf rfl, .inl rfl⟩

/-! ## When the order is kept -/

/-- `x rel n` holds if and only if the moved test does: with `+`, the sum wraps
if and only if the difference of the constants does, with a constant behind
`-`, the difference wraps if and only if the sum of the constants does, and in
front of `-`, the order must not matter. -/
def MoveKept (assign : Assignment) (n : BitVec 32) : Data → Prop
  | .op .plus _ (.unum c) y _ | .op .plus _ y (.unum c) _ =>
      ∀ w, evaluate assign y = .ok w →
        (2 ^ 32 ≤ w.unum.toNat + c.toNat ↔ n < c)
  | .op .minus _ (.unum c) y _ =>
      ∀ w, evaluate assign y = .ok w →
        w.unum = c - n ∨ (c < w.unum ↔ n ≤ c)
  | .op .minus _ y (.unum c) _ =>
      ∀ w, evaluate assign y = .ok w →
        (w.unum < c ↔ 2 ^ 32 ≤ n.toNat + c.toNat)
  | _ => True

/-- The constant may be on either side. -/
def TestKept (assign : Assignment) (dsc : OpDsc) (a b : Data) : Prop :=
  dsc.ordering = true →
    match a, b with
    | .unum _, .unum _ => True
    | a, .unum n => MoveKept assign n a
    | .unum n, b => MoveKept assign n b
    | _, _ => True

/-- Every test of the expression is kept. -/
def RelKept (assign : Assignment) : Data → Prop
  | .op dsc _ a b _ =>
      if dsc.relational then TestKept assign dsc a b
      else RelKept assign a ∧ RelKept assign b
  | _ => True

/-- Both relations are told by how the numbers compare. -/
private theorem relOp_compare {dsc : OpDsc} (h : dsc.ordering = true)
    {a b c d : Nat} (heq : a = b ↔ c = d) :
    relOp dsc a b = relOp dsc c d ↔ compare a b = compare c d := by
  rw [ModOrder.compare_congr_iff]
  cases dsc with
  | gt | ge | lt | le =>
      simp only [relOp, decide_eq_decide]
      omega
  | _ => cases h

private theorem relOp_equality {dsc : OpDsc} (h : dsc.relational = true)
    (hord : ¬dsc.ordering = true) {a b c d : Nat} (heq : a = b ↔ c = d) :
    relOp dsc a b = relOp dsc c d := by
  cases dsc with
  | eq => exact beq_eq_beq.mpr heq
  | ne => exact congrArg (!·) (beq_eq_beq.mpr heq)
  | gt | ge | lt | le => exact absurd rfl hord
  | _ => cases h

/-- A relation is kept if and only if the operands compare as before. -/
private theorem relOp_moved_iff {dsc : OpDsc} (h : dsc.relational = true)
    {a b c d : Nat} (heq : a = b ↔ c = d) {kept : Prop}
    (hkept : compare a b = compare c d ↔ kept) :
    relOp dsc a b = relOp dsc c d ↔ (dsc.ordering = true → kept) := by
  by_cases hord : dsc.ordering = true
  · rw [relOp_compare hord heq, hkept]
    exact ⟨fun hk _ => hk, fun hk => hk hord⟩
  · exact iff_of_true (relOp_equality h hord heq) fun ho => absurd ho hord

section

variable {n c : BitVec 32} {t : DataType} {y z : Data}

private theorem moveKept_plusLeft :
    MoveKept assign n (.op .plus t (.unum c) y z) ↔
      ∀ w, evaluate assign y = .ok w →
        (2 ^ 32 ≤ w.unum.toNat + c.toNat ↔ n < c) := Iff.rfl

private theorem moveKept_minusLeft :
    MoveKept assign n (.op .minus t (.unum c) y z) ↔
      ∀ w, evaluate assign y = .ok w →
        w.unum = c - n ∨ (c < w.unum ↔ n ≤ c) := Iff.rfl

private theorem moveKept_plusRight (hy : y.isConstant = false) :
    MoveKept assign n (.op .plus t y (.unum c) z) ↔
      ∀ w, evaluate assign y = .ok w →
        (2 ^ 32 ≤ w.unum.toNat + c.toNat ↔ n < c) := by
  cases y <;> first | exact Iff.rfl | cases hy

private theorem moveKept_minusRight (hy : y.isConstant = false) :
    MoveKept assign n (.op .minus t y (.unum c) z) ↔
      ∀ w, evaluate assign y = .ok w →
        (w.unum < c ↔ 2 ^ 32 ≤ n.toNat + c.toNat) := by
  cases y <;> first | exact Iff.rfl | cases hy

/-- There is only one value to look at. -/
private theorem forall_evaluate {w : Number} {P : Number → Prop}
    (hw : evaluate assign y = .ok w) :
    (∀ w, evaluate assign y = .ok w → P w) ↔ P w := by
  constructor
  · intro h
    exact h w hw
  · intro h w' hw'
    rw [hw] at hw'
    exact Except.ok.inj hw' ▸ h

end

/-! Each move, with the values of both sides. -/

section

variable {dsc : OpDsc} (h : dsc.relational = true) (w c n : BitVec 32)
include h

private theorem relOp_plus_iff :
    relOp dsc (w + c).toNat n.toNat = relOp dsc w.toNat (n - c).toNat ↔
      (dsc.ordering = true → (2 ^ 32 ≤ w.toNat + c.toNat ↔ n < c)) := by
  rw [BitVec.toNat_add, BitVec.toNat_sub, BitVec.lt_def]
  exact relOp_moved_iff h
    (ModOrder.add_mod_eq_iff w.isLt c.isLt n.isLt)
    (ModOrder.compare_add_mod_iff w.isLt c.isLt n.isLt)

private theorem relOp_minus_iff :
    relOp dsc (w - c).toNat n.toNat = relOp dsc w.toNat (n + c).toNat ↔
      (dsc.ordering = true → (w < c ↔ 2 ^ 32 ≤ n.toNat + c.toNat)) := by
  rw [BitVec.toNat_sub, BitVec.toNat_add, BitVec.lt_def]
  exact relOp_moved_iff h
    (ModOrder.sub_mod_eq_iff w.isLt c.isLt n.isLt)
    (ModOrder.compare_sub_mod_iff w.isLt c.isLt n.isLt)

private theorem relOp_rsub_iff :
    relOp dsc (c - w).toNat n.toNat = relOp dsc w.toNat (c - n).toNat ↔
      (dsc.ordering = true → w = c - n ∨ (c < w ↔ n ≤ c)) := by
  have heq : w = c - n ↔
      w.toNat = (2 ^ 32 - n.toNat + c.toNat) % 2 ^ 32 := by
    rw [← BitVec.toNat_inj, BitVec.toNat_sub]
  rw [heq, BitVec.toNat_sub, BitVec.toNat_sub, BitVec.lt_def, BitVec.le_def]
  exact relOp_moved_iff h
    (ModOrder.rsub_mod_eq_iff w.isLt c.isLt n.isLt)
    (ModOrder.compare_rsub_mod_iff w.isLt c.isLt n.isLt)

end

/-- The moved test is worth the same exactly where its move is kept. -/
private theorem moved_iff {dsc : OpDsc} (h : dsc.relational = true)
    {n m : BitVec 32} {x y : Data} (hmoved : Moved n x y m) {v : Number}
    (hv : evaluate assign x = .ok v) :
    ∃ w, evaluate assign y = .ok w ∧
      (relOp dsc v.unum.toNat n.toNat = relOp dsc w.unum.toNat m.toNat ↔
        (dsc.ordering = true → MoveKept assign n x)) := by
  cases hmoved with
  | @plusLeft t c y z =>
      obtain ⟨k, w, hk, hw, hsum⟩ := evaluate_additive (.inl rfl) hv
      cases hk
      refine ⟨w, hw, ?_⟩
      rw [hsum, if_pos rfl, BitVec.add_comm, moveKept_plusLeft,
        forall_evaluate hw]
      exact relOp_plus_iff h w.unum c n
  | @plusRight t c y z hy =>
      obtain ⟨w, k, hw, hk, hsum⟩ := evaluate_additive (.inl rfl) hv
      cases hk
      refine ⟨w, hw, ?_⟩
      rw [hsum, if_pos rfl, moveKept_plusRight hy, forall_evaluate hw]
      exact relOp_plus_iff h w.unum c n
  | @minusLeft t c y z =>
      obtain ⟨k, w, hk, hw, hdiff⟩ := evaluate_additive (.inr rfl) hv
      cases hk
      refine ⟨w, hw, ?_⟩
      rw [hdiff, if_neg nofun, moveKept_minusLeft, forall_evaluate hw]
      exact relOp_rsub_iff h w.unum c n
  | @minusRight t c y z hy =>
      obtain ⟨w, k, hw, hk, hdiff⟩ := evaluate_additive (.inr rfl) hv
      cases hk
      refine ⟨w, hw, ?_⟩
      rw [hdiff, if_neg nofun, moveKept_minusRight hy, forall_evaluate hw]
      exact relOp_minus_iff h w.unum c n

/-! ## Tests -/

section

variable {dsc : OpDsc} (h : dsc.relational = true)
include h

theorem evaluate_relation {a b : Data} {v w : Number}
    (hv : evaluate assign a = .ok v) (hw : evaluate assign b = .ok w) :
    evaluate assign (.op dsc .unum a b .none) = .ok (relEval dsc v w) := by
  have hb : b ≠ .none := by
    rintro rfl
    cases hw
  rw [evaluate, nodeEval_iff]
  refine ⟨.inl rfl, .binary hb hv hw ?_⟩
  cases dsc <;> first | rfl | cases h

theorem evaluate_relation_inv {a b : Data} {u : Number}
    (hu : evaluate assign (.op dsc .unum a b .none) = .ok u) :
    ∃ v w, evaluate assign a = .ok v ∧ evaluate assign b = .ok w ∧
      u = relEval dsc v w := by
  obtain ⟨-, v, w, hv, hw, -⟩ := evaluate_operands
    (by rintro rfl; cases h)
    (by intro _ _ heval; cases dsc <;> first
      | exact absurd h (by decide)
      | cases heval) hu
  refine ⟨v, w, hv, hw, ?_⟩
  rw [evaluate_relation h hv hw] at hu
  exact (Except.ok.inj hu).symm

end

theorem relEval_inj {dsc dsc' : OpDsc} {a b c d : Number} :
    relEval dsc a b = relEval dsc' c d ↔
      relOp dsc a.unum.toNat b.unum.toNat =
        relOp dsc' c.unum.toNat d.unum.toNat := by
  unfold relEval
  cases relOp dsc a.unum.toNat b.unum.toNat <;>
    cases relOp dsc' c.unum.toNat d.unum.toNat <;> simp [dataUnum]

theorem relOp_swapRel {dsc : OpDsc} (h : dsc.relational = true)
    (x y : Nat) : relOp (swapRel dsc) x y = relOp dsc y x := by
  cases dsc with
  | eq => exact beq_eq_beq.mpr eq_comm
  | ne => exact congrArg (!·) (beq_eq_beq.mpr eq_comm)
  | gt | ge | lt | le => rfl
  | _ => cases h

theorem relational_swapRel {dsc : OpDsc} :
    (swapRel dsc).relational = dsc.relational := by
  cases dsc <;> rfl

theorem ordering_swapRel {dsc : OpDsc} :
    (swapRel dsc).ordering = dsc.ordering := by
  cases dsc <;> rfl

private theorem MoveFree.moveKept {x : Data} (h : MoveFree x)
    (n : BitVec 32) : MoveKept assign n x := by
  cases h with
  | of_leaf hleaf => cases x <;> trivial
  | @of_operator dsc t p q z hplus hminus =>
      unfold MoveKept
      split <;> first | trivial | (rename_i heq; cases heq; contradiction)
  | @of_operands dsc t p q z hp hq =>
      unfold MoveKept
      split <;> first
        | trivial
        | (rename_i heq; cases heq; exact absurd rfl hp)
        | (rename_i heq; cases heq; exact absurd rfl hq)

/-- A test with its constant on the right, once it has been moved. -/
private theorem relMove_iff {dsc : OpDsc} (h : dsc.relational = true)
    {x : Data} {v : Number} (hv : evaluate assign x = .ok v)
    (n : BitVec 32) :
    ∃ u, evaluate assign ((relMove dsc .unum x (.unum n) .none).getD
        (.op dsc .unum x (.unum n) .none)) = .ok u ∧
      (u = relEval dsc v (dataUnum n) ↔
        (dsc.ordering = true → MoveKept assign n x)) := by
  have hsame : evaluate assign (.op dsc .unum x (.unum n) .none) =
      .ok (relEval dsc v (dataUnum n)) := evaluate_relation h hv rfl
  rcases relMove_cases hv dsc .unum .none with
    ⟨y, m, hmoved, hmove⟩ | ⟨hfree, hmove | hmove⟩
  · obtain ⟨w, hw, hiff⟩ := moved_iff h hmoved hv
    rw [hmove]
    refine ⟨_, evaluate_relation h hw rfl, ?_⟩
    rw [eq_comm, relEval_inj]
    exact hiff
  · rw [hmove]
    exact ⟨_, hsame, iff_of_true rfl fun _ => hfree.moveKept n⟩
  · rw [hmove]
    exact ⟨_, hsame, iff_of_true rfl fun _ => hfree.moveKept n⟩

private theorem relMath_left {dsc : OpDsc} (h : dsc.relational = true)
    {x : Data} (hx : x.numeric = true) (hconst : ¬x.isConstant = true)
    (n : BitVec 32) :
    relMath (.op dsc .unum x (.unum n) .none) =
      .ok ((relMove dsc .unum x (.unum n) .none).getD
        (.op dsc .unum x (.unum n) .none)) := by
  rw [relMath, if_pos h, if_neg fun hc => hconst hc.1,
    if_neg fun hc => hconst hc.1]
  cases hmove : relMove dsc .unum x (.unum n) .none with
  | some d => rfl
  | none =>
      simp only [relMath_numeric hx, relMath, Option.getD_none]
      rfl

private theorem relMath_right {dsc : OpDsc} (h : dsc.relational = true)
    {x : Data} (hx : x.numeric = true) (hop : x.isOp = true)
    (n : BitVec 32) :
    relMath (.op dsc .unum (.unum n) x .none) =
      .ok ((relMove (swapRel dsc) .unum x (.unum n) .none).getD
        (.op (swapRel dsc) .unum x (.unum n) .none)) := by
  have hconst : ¬((Data.unum n).isConstant = true ∧ x.isConstant = true) := by
    intro hc
    exact Data.not_isOp_of_isConstant hc.2 hop
  rw [relMath, if_pos h, if_neg hconst, if_pos ⟨rfl, hop⟩]
  cases hmove : relMove (swapRel dsc) .unum x (.unum n) .none with
  | some d => rfl
  | none =>
      simp only [relMath_numeric hx, relMath, Option.getD_none]
      rfl

/-- An address is no constant for `rel_math`. -/
private theorem relMath_leaf {dsc : OpDsc} (h : dsc.relational = true)
    {x : Data} (hconst : ¬x.isConstant = true) (hop : ¬x.isOp = true)
    (n : BitVec 32) :
    relMath (.op dsc .unum (.unum n) x .none) =
      .ok (.op dsc .unum (.unum n) x .none) := by
  have hleaf : relMath x = .ok x := by
    cases x <;> first | rfl | exact absurd rfl hop
  rw [relMath, if_pos h, if_neg fun hc => hconst hc.2,
    if_neg fun hc => hop hc.2]
  simp only [relMove, relMath, hleaf]
  rfl

private theorem relMath_constants {dsc : OpDsc} (h : dsc.relational = true)
    (m n : BitVec 32) :
    relMath (.op dsc .unum (.unum m) (.unum n) .none) =
      .ok (relEval dsc (dataUnum m) (dataUnum n)).data := by
  rw [relMath, if_pos h, if_pos ⟨rfl, rfl⟩]
  rfl

private theorem evaluate_data (v : Number) :
    evaluate assign v.data = .ok v := by
  obtain ⟨ipv4, n⟩ := v
  cases ipv4 <;> rfl

private theorem testKept_left (dsc : OpDsc) (x : Data) (n : BitVec 32) :
    TestKept assign dsc x (.unum n) ↔
      (dsc.ordering = true → MoveKept assign n x) := by
  cases x <;> exact Iff.rfl

private theorem testKept_right (dsc : OpDsc) (x : Data) (n : BitVec 32) :
    TestKept assign dsc (.unum n) x ↔
      (dsc.ordering = true → MoveKept assign n x) := by
  cases x <;> exact Iff.rfl

/-- A test keeps its value exactly where its move is kept. -/
private theorem relMath_test_iff {dsc : OpDsc} (h : dsc.relational = true)
    {x : Data} (hx : x.numeric = true) {n : BitVec 32} {a b : Data}
    (hside : a = x ∧ b = .unum n ∨ a = .unum n ∧ b = x) {v : Number}
    (hv : evaluate assign (.op dsc .unum a b .none) = .ok v) :
    ∃ e w, relMath (.op dsc .unum a b .none) = .ok e ∧
      evaluate assign e = .ok w ∧ (w = v ↔ TestKept assign dsc a b) := by
  obtain ⟨va, vb, hva, hvb, rfl⟩ := evaluate_relation_inv h hv
  by_cases hconst : x.isConstant = true
  · obtain ⟨m, rfl⟩ : ∃ m, x = .unum m := by
      rcases hside with ⟨rfl, -⟩ | ⟨-, rfl⟩
      · exact constant_unum hconst hva
      · exact constant_unum hconst hvb
    rcases hside with ⟨rfl, rfl⟩ | ⟨rfl, rfl⟩
    · cases hva
      cases hvb
      exact ⟨_, _, relMath_constants h m n, evaluate_data _,
        iff_of_true rfl fun _ => trivial⟩
    · cases hva
      cases hvb
      exact ⟨_, _, relMath_constants h n m, evaluate_data _,
        iff_of_true rfl fun _ => trivial⟩
  rcases hside with ⟨rfl, rfl⟩ | ⟨rfl, rfl⟩
  · cases hvb
    obtain ⟨u, hu, hiff⟩ := relMove_iff h hva n
    exact ⟨_, u, relMath_left h hx hconst n, hu,
      hiff.trans (testKept_left dsc a n).symm⟩
  · cases hva
    by_cases hop : b.isOp = true
    · have hswap : (swapRel dsc).relational = true :=
        relational_swapRel.trans h
      obtain ⟨u, hu, hiff⟩ := relMove_iff hswap hvb n
      refine ⟨_, u, relMath_right h hx hop n, hu, ?_⟩
      have hread : relEval dsc (dataUnum n) vb =
          relEval (swapRel dsc) vb (dataUnum n) :=
        relEval_inj.mpr (relOp_swapRel h _ _).symm
      rw [hread, hiff, ordering_swapRel, testKept_right]
    · refine ⟨_, _, relMath_leaf h hconst hop n, hv,
        iff_of_true rfl ((testKept_right dsc b n).mpr fun _ => ?_)⟩
      exact (MoveFree.of_leaf (Bool.not_eq_true _ ▸ hop)).moveKept n

/-! ## Expressions -/

/-- Tests of arithmetic expressions against constants of 32 bits, joined by
logical operators. -/
inductive RelExpr : Data → Prop
  | right {dsc x} (h : dsc.relational = true) (hx : x.numeric = true)
      (n : BitVec 32) : RelExpr (.op dsc .unum x (.unum n) .none)
  | left {dsc x} (h : dsc.relational = true) (hx : x.numeric = true)
      (n : BitVec 32) : RelExpr (.op dsc .unum (.unum n) x .none)
  | not {a} (ha : RelExpr a) : RelExpr (.logicalNot a)
  | and {a b} (ha : RelExpr a) (hb : RelExpr b) : RelExpr (.logicalAnd a b)
  | or {a b} (ha : RelExpr a) (hb : RelExpr b) : RelExpr (.logicalOr a b)

/-- A boolean operator, given its operands. -/
private theorem evaluate_logical {dsc : OpDsc}
    (hdsc : dsc = .logicalAnd ∨ dsc = .logicalOr) {a b : Data} {v : Number}
    (hv : evaluate assign (.op dsc .unum a b .none) = .ok v) :
    ∃ x y, evaluate assign a = .ok x ∧ evaluate assign b = .ok y ∧
      binaryEval dsc x y = .ok v := by
  obtain ⟨-, h⟩ : Data.none = .none ∧ ∃ x y, evaluate assign a = .ok x ∧
      evaluate assign b = .ok y ∧ binaryEval dsc x y = .ok v := by
    rcases hdsc with rfl | rfl <;>
      exact evaluate_operands (fun h => nomatch h) (fun _ _ h => nomatch h) hv
  exact h

/-- What comes out of `rel_math` has a value, the one of before where every
test is kept; one test has it nowhere else. -/
def RelMathKeeps (assign : Assignment) (d : Data) (v : Number) : Prop :=
  ∃ e w, relMath d = .ok e ∧ evaluate assign e = .ok w ∧
    (RelKept assign d → w = v) ∧
    (d.isTest = true → w = v → RelKept assign d)

private theorem keeps_test {dsc : OpDsc} (h : dsc.relational = true)
    {x : Data} (hx : x.numeric = true) {n : BitVec 32} {a b : Data}
    (hside : a = x ∧ b = .unum n ∨ a = .unum n ∧ b = x) {v : Number}
    (hv : evaluate assign (.op dsc .unum a b .none) = .ok v) :
    RelMathKeeps assign (.op dsc .unum a b .none) v := by
  obtain ⟨e, w, he, hw, hiff⟩ := relMath_test_iff h hx hside hv
  have hkept : RelKept assign (.op dsc .unum a b .none) ↔
      TestKept assign dsc a b := by
    rw [RelKept, if_pos h]
  exact ⟨e, w, he, hw, fun hk => hiff.mpr (hkept.mp hk),
    fun _ heq => hkept.mpr (hiff.mp heq)⟩

private theorem keeps_logical {dsc : OpDsc}
    (hdsc : dsc = .logicalAnd ∨ dsc = .logicalOr) {a b : Data}
    (iha : ∀ {v}, evaluate assign a = .ok v → RelMathKeeps assign a v)
    (ihb : ∀ {v}, evaluate assign b = .ok v → RelMathKeeps assign b v)
    {v : Number} (hv : evaluate assign (.op dsc .unum a b .none) = .ok v) :
    RelMathKeeps assign (.op dsc .unum a b .none) v := by
  obtain ⟨x, y, hx, hy, hxy⟩ := evaluate_logical hdsc hv
  obtain ⟨a', x', ha', hx', hkeepa, -⟩ := iha hx
  obtain ⟨b', y', hb', hy', hkeepb, -⟩ := ihb hy
  have hrel : ¬dsc.relational = true := by
    rcases hdsc with rfl | rfl <;> exact Bool.false_ne_true
  obtain ⟨w, hw⟩ : ∃ w, binaryEval dsc x' y' = .ok w := by
    rcases hdsc with rfl | rfl <;> exact ⟨_, rfl⟩
  have hb'none : b' ≠ .none := by
    rintro rfl
    cases hy'
  refine ⟨.op dsc .unum a' b' .none, w, ?_, ?_, ?_, ?_⟩
  · rw [relMath, if_neg hrel, ha', hb']
    rfl
  · rw [evaluate, nodeEval_iff]
    exact ⟨.inl rfl, .binary hb'none hx' hy' hw⟩
  · intro hk
    rw [RelKept, if_neg hrel] at hk
    rw [hkeepa hk.1, hkeepb hk.2, hxy] at hw
    exact (Except.ok.inj hw).symm
  · intro htest
    rcases hdsc with rfl | rfl <;> cases htest

/-- `rel_math` keeps the value of an expression where every move is kept, and
of a single test only there. -/
theorem relMath_preserves {d : Data} (h : RelExpr d) {v : Number}
    (hv : evaluate assign d = .ok v) : RelMathKeeps assign d v := by
  induction h generalizing v with
  | right h hx n => exact keeps_test h hx (.inl ⟨rfl, rfl⟩) hv
  | left h hx n => exact keeps_test h hx (.inr ⟨rfl, rfl⟩) hv
  | and _ _ iha ihb => exact keeps_logical (.inl rfl) iha ihb hv
  | or _ _ iha ihb => exact keeps_logical (.inr rfl) iha ihb hv
  | @not a _ iha =>
      rw [evaluate, nodeEval_iff] at hv
      obtain ⟨-, hnode⟩ := hv
      cases hnode with
      | binary hb => exact absurd rfl hb
      | @unary _ x _ hb hx hxv =>
          obtain ⟨a', x', ha', hx', hkeep, -⟩ := iha hx
          have hrel : ¬OpDsc.logicalNot.relational = true :=
            Bool.false_ne_true
          refine ⟨.logicalNot a', unum1Eval .logicalNot x', ?_, ?_, ?_, ?_⟩
          · rw [relMath, if_neg hrel, ha']
            rfl
          · rw [evaluate, nodeEval_iff]
            exact ⟨.inl rfl, .unary rfl hx' rfl⟩
          · intro hk
            rw [RelKept, if_neg hrel] at hk
            rw [hkeep hk.1]
            exact Except.ok.inj hxv
          · intro htest
            cases htest

/-- The length of the header, less its fixed part. -/
theorem relMath_preserves_headerLength :
    RelMathKeeps (fun _ _ _ => 24)
      (.op .gt .unum (.op .minus .unum (wordAccess 0 0) (.unum 20) .none)
        (.unum 3) .none)
      (dataUnum 1) :=
  relMath_preserves (.right rfl rfl 3) rfl

/-- `5 - X < 3` for 4: what is left is `X < 2`. -/
theorem relMath_reversed :
    ¬∀ assign d v, RelExpr d → evaluate assign d = .ok v →
      ∃ e, relMath d = .ok e ∧ evaluate assign e = .ok v := by
  intro h
  obtain ⟨e, he, hv⟩ := h (fun _ _ _ => 4)
    (.op .lt .unum (.op .minus .unum (.unum 5) (wordAccess 0 0) .none)
      (.unum 3) .none) (dataUnum 1) (.right rfl rfl 3) rfl
  cases he
  revert hv
  decide +kernel

end Arith

end Tcng
