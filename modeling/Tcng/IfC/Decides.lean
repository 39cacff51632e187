import Tcng.IfC.Expression

/-! Where the C function decides as the expression does. -/

namespace Tcng.IfC

open CArith
open Tcng.Op

/-! ## Condition -/

/-- The type the expression has in C. -/
def cType : Data → IntType
  | .unum n | .ipv4 n => constantType n
  | .op .access _ (.fieldRoot root) _ (.unum size) =>
      if root = 0 then accessType size else .int
  | .op dsc _ a b _ =>
      match cOp dsc with
      | some op => resultType op (cType a) (cType b)
      | none => if dsc = .not then cType a else .int
  | _ => .int

/-- The operator does the same on `int` operands as on unsigned ones, counts
of shifts are in range, and `/` does not make a mask. -/
def OperandsFit (dsc : OpDsc) (a b : IntType) (x y : Number) : Prop :=
  ∀ op, cOp dsc = some op →
    (operandType op a b = .int → Fits op x.unum y.unum) ∧
    (op = .shl ∨ op = .shr → y.unum < 32) ∧
    (op = .div → x.ipv4 = false)

/-- The operands of every operator that is reached fit. -/
def Fitting (rightFirst : Bool) (skb : Skb) : Data → Prop
  | .op .access _ (.fieldRoot _) b (.unum _) => Fitting rightFirst skb b
  | .op _ _ a .none .none => Fitting rightFirst skb a
  | .op .logicalAnd _ a b .none =>
      Fitting rightFirst skb a ∧
        ∀ x, evaluate rightFirst skb a = .ok (.value x) → x.unum ≠ 0 →
          Fitting rightFirst skb b
  | .op .logicalOr _ a b .none =>
      Fitting rightFirst skb a ∧
        ∀ x, evaluate rightFirst skb a = .ok (.value x) → x.unum = 0 →
          Fitting rightFirst skb b
  | .op dsc _ a b .none =>
      if rightFirst then
        Fitting rightFirst skb b ∧
          ∀ y, evaluate rightFirst skb b = .ok (.value y) →
            Fitting rightFirst skb a ∧
              ∀ x, evaluate rightFirst skb a = .ok (.value x) →
                OperandsFit dsc (cType a) (cType b) x y
      else
        Fitting rightFirst skb a ∧
          ∀ x, evaluate rightFirst skb a = .ok (.value x) →
            Fitting rightFirst skb b ∧
              ∀ y, evaluate rightFirst skb b = .ok (.value y) →
                OperandsFit dsc (cType a) (cType b) x y
  | _ => True

/-! ## Printing -/

section

variable {classId : Class → BitVec 32}

private theorem dumpCData_begins {d : Data} {e : CExpr}
    {table table' : List (BitVec 32)}
    (h : dumpCData classId d table = .ok (e, table')) : table <+: table' := by
  have hresult {code : PoliceCode} {c : Class}
      (h : dumpResult classId code c table = .ok (e, table')) :
      table <+: table' := by
    simp only [dumpResult] at h
    split at h
    · cases h
    · cases h
      exact List.prefix_append _ _
  cases d with
  | unum | ipv4 =>
      cases h
      exact List.prefix_rfl
  | decision dec =>
      cases dec with
      | drClass | drReclassify => exact hresult h
      | drDrop | drContinue =>
          cases h
          exact List.prefix_rfl
  | _ => cases h

private theorem dumpCExpr_math {dsc : OpDsc} {t : DataType} {a b c : Data}
    {e : CExpr} {table table' : List (BitVec 32)} (hdsc : isMathOp dsc = true)
    (h : dumpCExpr classId (.op dsc t a b c) table = .ok (e, table')) :
    (b.type = .none ∧ ∃ x, dumpCExpr classId a table = .ok (x, table') ∧
      e = .unary dsc x) ∨
    (b.type ≠ .none ∧ ∃ x y middle,
      dumpCExpr classId a table = .ok (x, middle) ∧
      dumpCExpr classId b middle = .ok (y, table') ∧ e = .binary dsc x y) := by
  rw [dumpCExpr, if_pos hdsc] at h
  by_cases hb : b.type = .none
  · rw [if_pos hb] at h
    obtain ⟨⟨x, middle⟩, hx, h⟩ := bind_eq_ok.mp h
    cases h
    exact .inl ⟨hb, x, hx, rfl⟩
  · rw [if_neg hb] at h
    obtain ⟨⟨x, middle⟩, hx, h⟩ := bind_eq_ok.mp h
    obtain ⟨⟨y, last⟩, hy, h⟩ := bind_eq_ok.mp h
    cases h
    exact .inr ⟨hb, x, y, middle, hx, hy, rfl⟩

private theorem dumpCExpr_access {t : DataType} {a b c : Data}
    {e : CExpr} {table table' : List (BitVec 32)}
    (h : dumpCExpr classId (.op .access t a b c) table = .ok (e, table')) :
    (a = .fieldRoot metaFieldRoot ∧ b = .unum metaProtocolOffset ∧
      table' = table ∧ e = .accessMetaProtocol) ∨
    (a = .fieldRoot 0 ∧ ∃ x, dumpCExpr classId b table = .ok (x, table') ∧
      e = .access c.unumValue x) := by
  have hmath : ¬isMathOp .access = true := by decide
  rw [dumpCExpr, if_neg hmath, if_pos rfl] at h
  cases a with
  | fieldRoot root =>
      rw [dumpAccess] at h
      by_cases hroot : root = 0
      · subst hroot
        rw [if_neg (not_not_intro rfl)] at h
        obtain ⟨⟨x, middle⟩, hx, h⟩ := bind_eq_ok.mp h
        cases h
        exact .inr ⟨rfl, x, hx, rfl⟩
      · by_cases hmeta : root = metaFieldRoot
        · by_cases hb : b = .unum metaProtocolOffset
          · rw [if_pos hroot, if_neg (not_not_intro hmeta),
              if_neg (not_not_intro hb)] at h
            by_cases hc : c = .unum (metaProtocolSize * 8)
            · rw [if_neg (not_not_intro hc)] at h
              cases h
              exact .inl ⟨by rw [hmeta], hb, rfl, rfl⟩
            · rw [if_pos hc] at h
              cases h
          · rw [if_pos hroot, if_neg (not_not_intro hmeta), if_pos hb] at h
            cases h
        · rw [if_pos hroot, if_pos hmeta] at h
          cases h
  | _ => cases h

private theorem dumpCExpr_begins (d : Data) {e : CExpr}
    {table table' : List (BitVec 32)}
    (h : dumpCExpr classId d table = .ok (e, table')) : table <+: table' := by
  induction d generalizing e table table' with
  | op dsc t a b c iha ihb _ =>
      by_cases hdsc : isMathOp dsc = true
      · rcases dumpCExpr_math hdsc h with ⟨-, x, hx, -⟩ |
          ⟨-, x, y, middle, hx, hy, -⟩
        · exact iha hx
        · exact (iha hx).trans (ihb hy)
      · by_cases haccess : dsc = .access
        · subst haccess
          rcases dumpCExpr_access h with ⟨-, -, rfl, -⟩ | ⟨-, x, hx, -⟩
          · exact List.prefix_rfl
          · exact ihb hx
        · rw [dumpCExpr, if_neg hdsc, if_neg haccess] at h
          cases h
  | _ => exact dumpCData_begins h

end

/-! ## Results -/

def decisionVerdict (classId : Class → BitVec 32) : Decision → Verdict
  | .drClass c => .ok (classId c)
  | .drReclassify c => .reclassify (classId c)
  | .drDrop => .shot
  | .drContinue => .unspec

/-- The result of running an expression of some type is the outcome, results
being looked up in the table as it is in the end. -/
def Reaches (classId : Class → BitVec 32) (table : List (BitVec 32))
    (type : IntType) (r : Except Stop Value) : Outcome → Prop
  | .value a => r = .ok ⟨type, a.unum⟩
  | .decision d => ∃ code n, r = .error (.returned code n) ∧
      code.verdict table[n]? = some (decisionVerdict classId d)

namespace Reaches

variable {classId : Class → BitVec 32} {table : List (BitVec 32)}

theorem decision {type type' : IntType} {r : Except Stop Value} {d : Decision}
    (h : Reaches classId table type r (.decision d))
    (f : Value → Except Stop Value) :
    Reaches classId table type' (r >>= f) (.decision d) := by
  obtain ⟨code, n, rfl, hverdict⟩ := h
  exact ⟨code, n, rfl, hverdict⟩

theorem bind {type type' : IntType} {r : Except Stop Value} {a : Number}
    {f : Value → Except Stop Value} {out : Outcome}
    (h : Reaches classId table type r (.value a))
    (hf : Reaches classId table type' (f ⟨type, a.unum⟩) out) :
    Reaches classId table type' (r >>= f) out := by
  have hr : r = .ok ⟨type, a.unum⟩ := h
  rw [hr]
  exact hf

end Reaches

/-! ## Operators -/

private theorem cOp_of_binaryEval {dsc : OpDsc} {x y z : Number}
    (h : binaryEval dsc x y = .ok z) : ∃ op, cOp dsc = some op := by
  cases dsc <;> first | exact ⟨_, rfl⟩ | cases h

private theorem relEval_unum {dsc : OpDsc} {x y : Number} :
    (relEval dsc x y).unum = truth (relOp dsc x.unum.toNat y.unum.toNat) := rfl

private theorem binaryEval_unsigned {dsc : OpDsc} {op : BinOp}
    {x y z : Number} (h : binaryEval dsc x y = .ok z)
    (hop : cOp dsc = some op) (hshift : op = .shl ∨ op = .shr → y.unum < 32)
    (hdiv : op = .div → x.ipv4 = false) :
    unsignedOp op x.unum y.unum = some z.unum := by
  cases dsc with
  | plus =>
      cases hop
      simp only [binaryEval, additiveEval] at h
      split at h
      · next hy =>
          cases h
          simp [unsignedOp, hy.2]
      · split at h
        · next hx =>
            cases h
            simp [unsignedOp, hx.2.2]
        · cases h
          rfl
  | minus =>
      cases hop
      simp only [binaryEval, additiveEval] at h
      split at h
      · next hy =>
          cases h
          simp [unsignedOp, hy.2]
      · split at h
        · next hx => cases hx.1
        · cases h
          rfl
  | mult =>
      cases hop
      simp only [binaryEval, multEval] at h
      split at h
      · cases h
      · split at h
        · cases h
        · split at h
          · cases h
          · cases h
            rfl
  | div =>
      cases hop
      simp only [binaryEval, divEval, hdiv rfl] at h
      split at h
      · next hx => cases hx.1
      · split at h
        · cases h
        · split at h
          · cases h
          · next hy =>
              cases h
              rw [unsignedOp, if_neg hy]
              rfl
  | mod =>
      cases hop
      simp only [binaryEval, unum2Eval] at h
      split at h
      · cases h
      · split at h
        · cases h
        · next hy =>
            cases h
            have hzero : y.unum ≠ 0 := fun hzero =>
              hy ⟨trivial, hzero⟩
            rw [unsignedOp, if_neg hzero]
            rfl
  | and | or | xor =>
      cases hop
      simp only [binaryEval, unum2Eval] at h
      split at h
      · cases h
      · split at h
        · cases h
        · cases h
          rfl
  | shiftLeft =>
      cases hop
      simp only [binaryEval, shiftEval] at h
      split at h
      · cases h
      · split at h
        · split at h
          · cases h
          · cases h
            rw [unsignedOp, if_pos (hshift (.inl rfl))]
        · next hne => exact absurd trivial hne
  | shiftRight =>
      cases hop
      have hlt := hshift (.inr rfl)
      have hle : ¬(32 : BitVec 32) ≤ y.unum := BitVec.not_le.mpr hlt
      simp only [binaryEval, shiftEval, if_neg hle] at h
      split at h
      · cases h
      · split at h
        · next heq => cases heq
        · cases h
          rw [unsignedOp, if_pos hlt]
  | eq | ne =>
      cases hop
      cases h
      have heq : (x.unum == y.unum) = (x.unum.toNat == y.unum.toNat) := by
        rw [Bool.eq_iff_iff, beq_iff_eq, beq_iff_eq, BitVec.toNat_inj]
      simp only [unsignedOp, relEval_unum, relOp, bne, heq]
  | gt | ge | lt | le =>
      cases hop
      cases h
      rfl
  | _ => cases hop

private theorem runBinary_of_operandsFit {dsc : OpDsc} {a b : IntType}
    {x y z : Number} (h : binaryEval dsc x y = .ok z)
    (hfit : OperandsFit dsc a b x y) :
    ∃ op, cOp dsc = some op ∧
      runBinary dsc ⟨a, x.unum⟩ ⟨b, y.unum⟩ =
        .ok ⟨resultType op a b, z.unum⟩ := by
  obtain ⟨op, hop⟩ := cOp_of_binaryEval h
  obtain ⟨hfits, hshift, hdiv⟩ := hfit op hop
  have hunsigned := binaryEval_unsigned h hop hshift hdiv
  have hbinary := binary_of_fits (a := ⟨a, x.unum⟩) (b := ⟨b, y.unum⟩)
    hunsigned hfits
  refine ⟨op, hop, ?_⟩
  simp only [runBinary, hop, hbinary]

/-! ## Expressions -/

section

variable {rightFirst : Bool} {skb : Skb}

/-- The three shapes of operators that evaluate to something. -/
private theorem evaluate_op {dsc : OpDsc} {t : DataType} {a b c : Data}
    {out : Outcome}
    (h : evaluate rightFirst skb (.op dsc t a b c) = .ok out) :
    (∃ root size offset, dsc = .access ∧ a = .fieldRoot root ∧
      c = .unum size ∧ evaluate rightFirst skb b = .ok offset ∧
      accessOutcome skb root size offset = .ok out) ∨
    (b = .none ∧ c = .none ∧ (dsc = .not ∨ dsc = .logicalNot) ∧
      ∃ x, evaluate rightFirst skb a = .ok x ∧ out = unaryOutcome dsc x) ∨
    (b.type ≠ .none ∧ c = .none ∧
      ∃ x y, evaluate rightFirst skb a = .ok x ∧
        evaluate rightFirst skb b = .ok y ∧
        binaryOutcome rightFirst dsc x y = .ok out) := by
  unfold evaluate at h
  split at h
  · next heq => cases heq
  · next heq => cases heq
  · next heq => cases heq
  · next t' root b' size heq =>
      cases heq
      obtain ⟨offset, hoffset, h⟩ := bind_eq_ok.mp h
      exact .inl ⟨root, size, offset, rfl, rfl, rfl, hoffset, h⟩
  · next heq =>
      cases heq
      split at h
      · next hunary =>
          split at h
          · obtain ⟨x, hx, h⟩ := bind_eq_ok.mp h
            cases h
            exact .inr (.inl ⟨hunary.1, rfl, hunary.2, x, hx, rfl⟩)
          · cases h
      · split at h
        · next hoperands =>
            obtain ⟨x, hx, h⟩ := bind_eq_ok.mp h
            obtain ⟨y, hy, h⟩ := bind_eq_ok.mp h
            have hb : b.type ≠ .none := by
              intro hnone
              simp [isOperand, isInteger, hnone] at hoperands
            exact .inr (.inr ⟨hb, rfl, x, y, hx, hy, h⟩)
        · cases h
  · cases h

private theorem reaches_unary {classId : Class → BitVec 32}
    {table : List (BitVec 32)} {dsc : OpDsc} {type : IntType}
    {r : Except Stop Value} {x : Outcome}
    (hdsc : dsc = .not ∨ dsc = .logicalNot)
    (h : Reaches classId table type r x) :
    Reaches classId table (if dsc = .not then type else .int)
      (r >>= runUnary dsc) (unaryOutcome dsc x) := by
  cases x with
  | decision d => exact h.decision _
  | value a =>
      apply h.bind
      rcases hdsc with rfl | rfl
      · rfl
      · show Except.ok _ = Except.ok _
        by_cases hzero : a.unum = 0 <;> simp [unum1Eval, dataUnum, truth, hzero]

private theorem reaches_access {classId : Class → BitVec 32}
    {table : List (BitVec 32)} {size : BitVec 32} {type : IntType}
    {r : Except Stop Value} {offset out : Outcome}
    (h : Reaches classId table type r offset)
    (hout : accessOutcome skb 0 size offset = .ok out) :
    Reaches classId table (accessType size)
      (r >>= fun offset => runAccess skb 0 offset.bits size) out := by
  cases offset with
  | decision d =>
      cases hout
      exact h.decision _
  | value a =>
      obtain ⟨n, hn, hout⟩ := bind_eq_ok.mp hout
      cases hout
      apply h.bind
      simp only [Reaches, runAccess, hn, dataUnum]

/-- The second operand matters only where the first one leaves it to it. -/
private theorem reaches_shortCut {classId : Class → BitVec 32}
    {table : List (BitVec 32)} {short : Bool} {ta tb : IntType}
    {ra rb : Except Stop Value} {x y : Outcome}
    (ha : Reaches classId table ta ra x)
    (hb : ∀ a, x = .value a → (a.unum != 0) ≠ short →
      Reaches classId table tb rb y) :
    Reaches classId table .int (ra >>= fun x => runShortCut short x rb)
      (shortCut short x y) := by
  cases x with
  | decision d => exact ha.decision _
  | value a =>
      apply ha.bind
      by_cases hshort : (a.unum != 0) = short
      · simp only [runShortCut, shortCut, if_pos hshort]
        rfl
      · have hy := hb a rfl hshort
        simp only [runShortCut, shortCut, if_neg hshort]
        cases y with
        | decision d => exact hy.decision _
        | value b =>
            apply hy.bind
            show Except.ok _ = Except.ok _
            by_cases hzero : b.unum = 0 <;> simp [dataUnum, truth, hzero]

private theorem reaches_binary {classId : Class → BitVec 32}
    {table : List (BitVec 32)} {dsc : OpDsc} {ta tb : IntType}
    {ra rb : Except Stop Value} {x y out : Outcome} (rightFirst : Bool)
    (ha : rightFirst = false ∨ (∃ b, y = .value b) →
      Reaches classId table ta ra x)
    (hb : rightFirst = true ∨ (∃ a, x = .value a) →
      Reaches classId table tb rb y)
    (hfit : ∀ a b, x = .value a → y = .value b → OperandsFit dsc ta tb a b)
    (hout : inOrder rightFirst x y (binaryEval dsc) = .ok out) :
    Reaches classId table
      (match cOp dsc with
        | some op => resultType op ta tb
        | none => if dsc = .not then ta else .int)
      (if rightFirst then do
        let y ← rb
        let x ← ra
        runBinary dsc x y
      else do
        let x ← ra
        let y ← rb
        runBinary dsc x y) out := by
  cases x with
  | decision d =>
      cases y with
      | decision d' =>
          cases hout
          cases rightFirst with
          | false => exact (ha (.inl rfl)).decision _
          | true => exact (hb (.inl rfl)).decision _
      | value b =>
          cases hout
          have hx := ha (.inr ⟨b, rfl⟩)
          cases rightFirst with
          | false => exact hx.decision _
          | true => exact (hb (.inl rfl)).bind (hx.decision _)
  | value a =>
      have hy := hb (.inr ⟨a, rfl⟩)
      cases y with
      | decision d' =>
          cases hout
          cases rightFirst with
          | false => exact (ha (.inl rfl)).bind (hy.decision _)
          | true => exact hy.decision _
      | value b =>
          have hx := ha (.inr ⟨b, rfl⟩)
          obtain ⟨z, hz, hout⟩ := bind_eq_ok.mp hout
          cases hout
          obtain ⟨op, hop, hrun⟩ :=
            runBinary_of_operandsFit hz (hfit a b rfl rfl)
          rw [hop]
          cases rightFirst with
          | false => exact hx.bind (hy.bind hrun)
          | true => exact hy.bind (hx.bind hrun)

private theorem fitting_binary {dsc : OpDsc} {t : DataType} {a b : Data}
    (hb : b ≠ .none) (hand : dsc ≠ .logicalAnd) (hor : dsc ≠ .logicalOr)
    (h : Fitting rightFirst skb (.op dsc t a b .none)) :
    if rightFirst then
      Fitting rightFirst skb b ∧
        ∀ y, evaluate rightFirst skb b = .ok (.value y) →
          Fitting rightFirst skb a ∧
            ∀ x, evaluate rightFirst skb a = .ok (.value x) →
              OperandsFit dsc (cType a) (cType b) x y
    else
      Fitting rightFirst skb a ∧
        ∀ x, evaluate rightFirst skb a = .ok (.value x) →
          Fitting rightFirst skb b ∧
            ∀ y, evaluate rightFirst skb b = .ok (.value y) →
              OperandsFit dsc (cType a) (cType b) x y := by
  unfold Fitting at h
  split at h
  · next heq => cases heq
  · next heq =>
      cases heq
      exact absurd rfl hb
  · next heq =>
      cases heq
      exact absurd rfl hand
  · next heq =>
      cases heq
      exact absurd rfl hor
  · next heq =>
      cases heq
      exact h
  · next hnot => exact absurd rfl (hnot _ _ _ _)

private theorem fitting_first {dsc : OpDsc} {t : DataType} {a b : Data}
    (hb : b ≠ .none) (hdsc : dsc = .logicalAnd ∨ dsc = .logicalOr)
    (h : Fitting rightFirst skb (.op dsc t a b .none)) :
    Fitting rightFirst skb a ∧
      ∀ x, evaluate rightFirst skb a = .ok (.value x) →
        (x.unum != 0) ≠ decide (dsc = .logicalOr) →
        Fitting rightFirst skb b := by
  unfold Fitting at h
  split at h
  · next heq =>
      cases heq
  · next heq =>
      cases heq
      exact absurd rfl hb
  · next heq =>
      cases heq
      refine ⟨h.1, fun x hx hne => h.2 x hx ?_⟩
      simpa using hne
  · next heq =>
      cases heq
      refine ⟨h.1, fun x hx hne => h.2 x hx ?_⟩
      simpa using hne
  · next hand hor heq =>
      cases heq
      rcases hdsc with rfl | rfl
      · exact (hand rfl).elim
      · exact (hor rfl).elim
  · next hnot => exact absurd rfl (hnot _ _ _ _)

private theorem runCExpr_binary {dsc : OpDsc} (hand : dsc ≠ .logicalAnd)
    (hor : dsc ≠ .logicalOr) (a b : CExpr) :
    runCExpr rightFirst skb (.binary dsc a b) =
      (if rightFirst then do
        let y ← runCExpr rightFirst skb b
        let x ← runCExpr rightFirst skb a
        runBinary dsc x y
      else do
        let x ← runCExpr rightFirst skb a
        let y ← runCExpr rightFirst skb b
        runBinary dsc x y) := by
  cases dsc <;> first | rfl | contradiction

private theorem reaches_leaf {classId : Class → BitVec 32} {d : Data}
    {e : CExpr} {table table' final : List (BitVec 32)} {out : Outcome}
    (hleaf : d.isOp = false) (hdump : dumpCData classId d table = .ok (e, table'))
    (heval : evaluate rightFirst skb d = .ok out) (hfinal : table' <+: final) :
    Reaches classId final (cType d) (runCExpr rightFirst skb e) out := by
  have hentry {code : PoliceCode} {c : Class}
      (h : dumpResult classId code c table = .ok (e, table')) :
      e = .result code table.length ∧
        final[table.length]? = some (classId c) := by
    simp only [dumpResult] at h
    split at h
    · cases h
    · cases h
      obtain ⟨rest, rfl⟩ := hfinal
      exact ⟨rfl, by simp⟩
  cases d with
  | unum n | ipv4 n =>
      cases hdump
      cases heval
      rfl
  | decision dec =>
      cases heval
      cases dec with
      | drClass c =>
          obtain ⟨rfl, hc⟩ := hentry hdump
          exact ⟨.ok, table.length, rfl, by simp [PoliceCode.verdict, hc,
            decisionVerdict]⟩
      | drReclassify c =>
          obtain ⟨rfl, hc⟩ := hentry hdump
          exact ⟨.reclassify, table.length, rfl, by simp [PoliceCode.verdict,
            hc, decisionVerdict]⟩
      | drDrop =>
          cases hdump
          exact ⟨.shot, 0, rfl, rfl⟩
      | drContinue =>
          cases hdump
          exact ⟨.unspec, 0, rfl, rfl⟩
  | op => cases hleaf
  | _ => cases hdump

private theorem access_meta {offset size n : BitVec 32}
    (h : skb.access metaFieldRoot offset size = .ok n) :
    n = skb.protocol.setWidth 32 := by
  have hroot : metaFieldRoot ≠ 0 := by decide
  rw [Skb.access, if_neg hroot] at h
  split at h
  · exact (Except.ok.inj h).symm
  · cases h

private theorem binaryOutcome_inOrder {dsc : OpDsc} {x y : Outcome}
    (hand : dsc ≠ .logicalAnd) (hor : dsc ≠ .logicalOr) :
    binaryOutcome rightFirst dsc x y =
      inOrder rightFirst x y (binaryEval dsc) := by
  cases dsc <;> first | rfl | contradiction

private theorem cType_binary {dsc : OpDsc} {t : DataType} {a b : Data} :
    cType (.op dsc t a b .none) =
      match cOp dsc with
      | some op => resultType op (cType a) (cType b)
      | none => if dsc = .not then cType a else .int := by
  rw [cType]
  rintro root size - - h
  cases h

private theorem reaches_dumpCExpr {classId : Class → BitVec 32}
    {final : List (BitVec 32)} (d : Data) {e : CExpr}
    {table table' : List (BitVec 32)} {out : Outcome}
    (hdump : dumpCExpr classId d table = .ok (e, table'))
    (heval : evaluate rightFirst skb d = .ok out)
    (hfit : Fitting rightFirst skb d) (hfinal : table' <+: final) :
    Reaches classId final (cType d) (runCExpr rightFirst skb e) out := by
  induction d generalizing e table table' out with
  | op dsc t a b c iha ihb _ =>
      rcases evaluate_op heval with
        ⟨root, size, offset, rfl, rfl, rfl, hoffset, hout⟩ |
        ⟨rfl, rfl, hdsc, x, hx, rfl⟩ | ⟨hb, rfl, x, y, hx, hy, hout⟩
      · rcases dumpCExpr_access hdump with ⟨hroot, rfl, rfl, rfl⟩ |
          ⟨hroot, eb, hdumpb, rfl⟩
        · cases hroot
          cases hoffset
          obtain ⟨n, hn, hout⟩ := bind_eq_ok.mp hout
          cases hout
          obtain rfl := access_meta hn
          rfl
        · cases hroot
          exact reaches_access (ihb hdumpb hoffset hfit hfinal) hout
      · have hmath : isMathOp dsc = true := by
          rcases hdsc with rfl | rfl <;> rfl
        rcases dumpCExpr_math hmath hdump with ⟨-, ea, hdumpa, rfl⟩ | ⟨hne, -⟩
        · have hfita : Fitting rightFirst skb a := by
            rcases hdsc with rfl | rfl <;> exact hfit
          have hreach := reaches_unary hdsc (iha hdumpa hx hfita hfinal)
          rcases hdsc with rfl | rfl <;> exact hreach
        · exact absurd rfl hne
      · have hne : b ≠ .none := fun hnone => hb (hnone ▸ rfl)
        by_cases hmath : isMathOp dsc = true
        · rcases dumpCExpr_math hmath hdump with ⟨hnone, -⟩ |
            ⟨-, ea, eb, middle, hdumpa, hdumpb, rfl⟩
          · exact absurd hnone hb
          · have hmiddle := (dumpCExpr_begins b hdumpb).trans hfinal
            by_cases hshort : dsc = .logicalAnd ∨ dsc = .logicalOr
            · obtain ⟨hfita, hfitb⟩ := fitting_first hne hshort hfit
              have hreacha := iha hdumpa hx hfita hmiddle
              rcases hshort with rfl | rfl
              · cases hout
                apply reaches_shortCut hreacha
                rintro a' rfl htruth
                exact ihb hdumpb hy (hfitb a' hx htruth) hfinal
              · cases hout
                apply reaches_shortCut hreacha
                rintro a' rfl htruth
                exact ihb hdumpb hy (hfitb a' hx htruth) hfinal
            · obtain ⟨hand, hor⟩ := not_or.mp hshort
              have hfits := fitting_binary hne hand hor hfit
              rw [binaryOutcome_inOrder hand hor] at hout
              rw [cType_binary, runCExpr_binary hand hor]
              apply reaches_binary rightFirst _ _ _ hout
              · intro hreached
                cases rightFirst with
                | false => exact iha hdumpa hx hfits.1 hmiddle
                | true =>
                    obtain ⟨b', rfl⟩ := hreached.resolve_left (by decide)
                    exact iha hdumpa hx (hfits.2 b' hy).1 hmiddle
              · intro hreached
                cases rightFirst with
                | false =>
                    obtain ⟨a', rfl⟩ := hreached.resolve_left (by decide)
                    exact ihb hdumpb hy (hfits.2 a' hx).1 hfinal
                | true => exact ihb hdumpb hy hfits.1 hfinal
              · rintro a' b' rfl rfl
                cases rightFirst with
                | false => exact (hfits.2 a' hx).2 b' hy
                | true => exact (hfits.2 b' hy).2 a' hx
        · by_cases haccess : dsc = .access
          · subst haccess
            have hroot : ∃ root, a = .fieldRoot root := by
              rcases dumpCExpr_access hdump with ⟨h, -⟩ | ⟨h, -⟩
              · exact ⟨_, h⟩
              · exact ⟨_, h⟩
            obtain ⟨root, rfl⟩ := hroot
            simp [evaluate] at hx
          · rw [dumpCExpr, if_neg hmath, if_neg haccess] at hdump
            cases hdump
  | _ => exact reaches_leaf rfl hdump heval hfinal

end

/-- The verdict for an outcome; without decision, the packet is not
classified. -/
def outcomeVerdict (classId : Class → BitVec 32) : Outcome → Verdict
  | .value _ => .unspec
  | .decision d => decisionVerdict classId d

theorem classify_dumpCExpr (classId : Class → BitVec 32) (rightFirst : Bool)
    (skb : Skb) (d : Data) (e : CExpr) (table : List (BitVec 32))
    (out : Outcome) (hdump : dumpCExpr classId d [] = .ok (e, table))
    (heval : evaluate rightFirst skb d = .ok out)
    (hfit : Fitting rightFirst skb d) :
    classify rightFirst skb e table = some (outcomeVerdict classId out) := by
  have hreach := reaches_dumpCExpr d hdump heval hfit List.prefix_rfl
  cases out with
  | value a =>
      have hrun : runCExpr rightFirst skb e = _ := hreach
      rw [classify, hrun]
      rfl
  | decision dec =>
      obtain ⟨code, n, hrun, hverdict⟩ := hreach
      rw [classify, hrun]
      exact hverdict

def access8 (offset : BitVec 32) : Data :=
  .op .access .unum (.fieldRoot 0) (.unum offset) (.unum 8)

/-- A TCP packet goes to class 3. -/
def toTcpClass : Data :=
  .logicalAnd (.eq (access8 9) (.unum 6)) (.decision (.drClass 3))

def tcpSkb : Skb := ⟨fun offset => if offset = 9 then 6 else 0, 0x800⟩

theorem classify_dumpCExpr_tcp :
    classify false tcpSkb
      (.binary .logicalAnd
        (.binary .eq (.access 8 (.constant 9)) (.constant 6)) (.result .ok 0))
      [0x10003] = some (.ok 0x10003) := by
  refine classify_dumpCExpr (fun c => 0x10000 + .ofNat 32 c) false tcpSkb
    toTcpClass _ _ (.decision (.drClass 3)) rfl (by decide) ?_
  simp only [toTcpClass, access8, Fitting, Bool.false_eq_true, if_false,
    true_and, implies_true, and_true]
  intro x hx y hy op hop
  cases hop
  simp [Fits]

/-- The difference of two bytes exceeds 5. -/
def differenceDrops : Data :=
  .logicalAnd
    (.op .gt .unum (.op .minus .unum (access8 0) (access8 1) .none) (.unum 5)
      .none)
    (.decision .drDrop)

/-- The byte after the first one is greater by one. -/
def risingSkb : Skb := ⟨fun offset => if offset = 1 then 1 else 0, 0x800⟩

theorem differenceDrops_kept :
    ¬∀ e table out, dumpCExpr (fun _ => 0) differenceDrops [] = .ok (e, table) →
      evaluate false risingSkb differenceDrops = .ok out →
      classify false risingSkb e table =
        some (outcomeVerdict (fun _ => 0) out) := by
  intro h
  have hkept := h _ _ (.decision .drDrop) rfl (by decide)
  revert hkept
  decide

end Tcng.IfC
