import Mathlib.Data.BitVec

/-! Integer arithmetic of C after the integer promotions, for a 32-bit `int`.
`none` stands for undefined behaviour; shifting bits into the sign is defined,
as compilers document it. -/

namespace CArith

inductive IntType
  | int | unsigned
  deriving DecidableEq, Repr

structure Value where
  type : IntType
  bits : BitVec 32
  deriving DecidableEq, Repr

inductive BinOp
  | add | sub | mul | div | mod | and | or | xor | shl | shr
  | eq | ne | gt | ge | lt | le
  deriving DecidableEq, Repr

/-- The result of a comparison. -/
def truth (b : Bool) : BitVec 32 := if b then 1 else 0

@[simp] theorem truth_ne_zero (b : Bool) : truth b ≠ 0 ↔ b = true := by
  cases b <;> simp [truth]

@[simp] theorem truth_eq_zero (b : Bool) : truth b = 0 ↔ b = false := by
  cases b <;> simp [truth]

theorem truth_inj {b b' : Bool} : truth b = truth b' ↔ b = b' := by
  cases b <;> cases b' <;> simp [truth]

def unsignedOp (op : BinOp) (x y : BitVec 32) : Option (BitVec 32) :=
  match op with
  | .add => some (x + y)
  | .sub => some (x - y)
  | .mul => some (x * y)
  | .div => if y = 0 then none else some (x / y)
  | .mod => if y = 0 then none else some (x % y)
  | .and => some (x &&& y)
  | .or => some (x ||| y)
  | .xor => some (x ^^^ y)
  | .shl => if y < 32 then some (x <<< y) else none
  | .shr => if y < 32 then some (x >>> y) else none
  | .eq => some (truth (x == y))
  | .ne => some (truth (x != y))
  | .gt => some (truth (y.ult x))
  | .ge => some (truth (y.ule x))
  | .lt => some (truth (x.ult y))
  | .le => some (truth (x.ule y))

def signedOp (op : BinOp) (x y : BitVec 32) : Option (BitVec 32) :=
  match op with
  | .add => if x.saddOverflow y then none else some (x + y)
  | .sub => if x.ssubOverflow y then none else some (x - y)
  | .mul => if x.smulOverflow y then none else some (x * y)
  | .div => if y = 0 ∨ x.sdivOverflow y then none else some (x.sdiv y)
  | .mod => if y = 0 ∨ x.sdivOverflow y then none else some (x.srem y)
  | .and => some (x &&& y)
  | .or => some (x ||| y)
  | .xor => some (x ^^^ y)
  | .shl => if y < 32 then some (x <<< y) else none
  | .shr => if y < 32 then some (x.sshiftRight y.toNat) else none
  | .eq => some (truth (x == y))
  | .ne => some (truth (x != y))
  | .gt => some (truth (y.slt x))
  | .ge => some (truth (y.sle x))
  | .lt => some (truth (x.slt y))
  | .le => some (truth (x.sle y))

def IntType.join : IntType → IntType → IntType
  | .int, .int => .int
  | _, _ => .unsigned

/-- The type in which the operands are taken. -/
def operandType (op : BinOp) (a b : IntType) : IntType :=
  match op with
  | .shl | .shr => a
  | _ => a.join b

def resultType (op : BinOp) (a b : IntType) : IntType :=
  match op with
  | .eq | .ne | .gt | .ge | .lt | .le => .int
  | _ => operandType op a b

def binary (op : BinOp) (a b : Value) : Option Value :=
  let result := match operandType op a.type b.type with
    | .int => signedOp op a.bits b.bits
    | .unsigned => unsignedOp op a.bits b.bits
  result.map (⟨resultType op a.type b.type, ·⟩)

/-- The type of an integer constant in hexadecimal. -/
def constantType (n : BitVec 32) : IntType :=
  if n.msb then .unsigned else .int

/-! ## Where signed and unsigned arithmetic agree -/

/-- What signed operands have to be like for the operator to give what it
gives on unsigned ones. -/
def Fits (op : BinOp) (x y : BitVec 32) : Prop :=
  match op with
  | .add => x.saddOverflow y = false
  | .sub => x.ssubOverflow y = false
  | .mul => x.smulOverflow y = false
  | .div => x.sdiv y = x / y
  | .mod => x.srem y = x % y
  | .gt | .ge | .lt | .le => x.msb = y.msb
  | .shr => x.msb = false ∨ y = 0 ∨ ¬y < 32
  | _ => True

private theorem slt_eq_ult_iff (x y : BitVec 32) :
    x.slt y = x.ult y ↔ x.msb = y.msb := by
  rw [BitVec.slt_eq_ult]
  cases x.msb <;> cases y.msb <;> simp

private theorem sle_eq_ule_iff (x y : BitVec 32) :
    x.sle y = x.ule y ↔ x.msb = y.msb := by
  rw [BitVec.sle_eq_not_slt, BitVec.ule_eq_not_ult, Bool.not_inj_iff,
    slt_eq_ult_iff, eq_comm]

private theorem sdiv_ne_of_overflow {x y : BitVec 32}
    (h : x.sdivOverflow y = true) : x.sdiv y ≠ x / y := by
  simp only [BitVec.sdivOverflow_eq, Bool.and_eq_true, decide_eq_true_eq] at h
  obtain ⟨⟨-, rfl⟩, rfl⟩ := h
  decide

private theorem srem_ne_of_overflow {x y : BitVec 32}
    (h : x.sdivOverflow y = true) : x.srem y ≠ x % y := by
  simp only [BitVec.sdivOverflow_eq, Bool.and_eq_true, decide_eq_true_eq] at h
  obtain ⟨⟨-, rfl⟩, rfl⟩ := h
  decide

/-- A negative number stays negative as it is shifted. -/
private theorem sshiftRight_eq_ushiftRight_iff (x : BitVec 32) {y : BitVec 32}
    (hy : y < 32) :
    x.sshiftRight y.toNat = x >>> y ↔ x.msb = false ∨ y = 0 := by
  constructor
  · intro h
    by_contra hne
    push Not at hne
    obtain ⟨hmsb, hzero⟩ := hne
    have hpos : 0 < y.toNat := by
      rcases Nat.eq_zero_or_pos y.toNat with h0 | h0
      · exact absurd (BitVec.eq_of_toNat_eq (by simpa using h0)) hzero
      · exact h0
    have heq := congrArg BitVec.msb h
    rw [BitVec.msb_sshiftRight, BitVec.ushiftRight_eq', BitVec.msb_ushiftRight]
      at heq
    simp at hmsb
    simp [hmsb, hpos.ne'] at heq
  · rintro (hmsb | rfl)
    · rw [BitVec.sshiftRight_eq_of_msb_false hmsb, BitVec.ushiftRight_eq']
    · simp

theorem signedOp_eq_unsignedOp_iff (op : BinOp) (x y : BitVec 32) :
    signedOp op x y = unsignedOp op x y ↔ Fits op x y := by
  cases op with
  | add => cases h : x.saddOverflow y <;> simp [signedOp, unsignedOp, Fits, h]
  | sub => cases h : x.ssubOverflow y <;> simp [signedOp, unsignedOp, Fits, h]
  | mul => cases h : x.smulOverflow y <;> simp [signedOp, unsignedOp, Fits, h]
  | div =>
      by_cases hy : y = 0
      · subst hy
        simp [signedOp, unsignedOp, Fits]
      · cases h : x.sdivOverflow y with
        | true =>
            simp only [signedOp, unsignedOp, Fits, h, or_true, if_true,
              if_neg hy, sdiv_ne_of_overflow h, reduceCtorEq]
        | false =>
            simp only [signedOp, unsignedOp, Fits, h, hy, or_self,
              Bool.false_eq_true, if_false, Option.some.injEq]
  | mod =>
      by_cases hy : y = 0
      · subst hy
        simp [signedOp, unsignedOp, Fits]
      · cases h : x.sdivOverflow y with
        | true =>
            simp only [signedOp, unsignedOp, Fits, h, or_true, if_true,
              if_neg hy, srem_ne_of_overflow h, reduceCtorEq]
        | false =>
            simp only [signedOp, unsignedOp, Fits, h, hy, or_self,
              Bool.false_eq_true, if_false, Option.some.injEq]
  | shr =>
      by_cases hy : y < 32
      · simp only [signedOp, unsignedOp, Fits, hy, if_true, Option.some.injEq,
          not_true_eq_false, or_false]
        exact sshiftRight_eq_ushiftRight_iff x hy
      · simp only [signedOp, unsignedOp, Fits, hy, if_false,
          not_false_eq_true, or_true]
  | gt | lt =>
      simp only [signedOp, unsignedOp, Fits, Option.some.injEq, truth_inj,
        slt_eq_ult_iff, eq_comm]
  | ge | le =>
      simp only [signedOp, unsignedOp, Fits, Option.some.injEq, truth_inj,
        sle_eq_ule_iff, eq_comm]
  | and | or | xor | shl | eq | ne => simp [signedOp, unsignedOp, Fits]

/-- Operands that are unsigned, or fit, give what unsigned ones would. -/
theorem binary_of_fits {op : BinOp} {a b : Value} {z : BitVec 32}
    (h : unsignedOp op a.bits b.bits = some z)
    (hfits : operandType op a.type b.type = .int → Fits op a.bits b.bits) :
    binary op a b = some ⟨resultType op a.type b.type, z⟩ := by
  cases ht : operandType op a.type b.type with
  | unsigned => simp [binary, ht, h]
  | int =>
      have heq := (signedOp_eq_unsignedOp_iff op _ _).mpr (hfits ht)
      simp [binary, ht, heq, h]

/-! ## Checked computations -/

/-- A computation that may end with an error. -/
abbrev Checked (ε α : Type) := ExceptT ε Option α

namespace Checked

variable {ε α β : Type}

def undefined : Checked ε α := none

def word (op : BinOp) (x y : BitVec 32) : Checked ε (BitVec 32) :=
  ExceptT.lift (unsignedOp op x y)

theorem word_of_some {op : BinOp} {x y z : BitVec 32}
    (h : unsignedOp op x y = some z) : word (ε := ε) op x y = pure z := by
  rw [word, h]
  rfl

theorem word_of_none {op : BinOp} {x y : BitVec 32}
    (h : unsignedOp op x y = none) : word (ε := ε) op x y = undefined := by
  rw [word, h]
  rfl

end Checked

end CArith
