import Tcng.Lib.CArith
import Tcng.Data
import Tcng.Semantics

/-! The evaluators of `op.c` on constant operands of type `dt_unum` and
`dt_ipv4`. -/

namespace Tcng.Op

/-- A number without operator; `ipv4` tells the two types apart. -/
structure Number where
  ipv4 : Bool
  unum : BitVec 32
  deriving DecidableEq, Repr

namespace Number

def type (a : Number) : DataType := if a.ipv4 then .ipv4 else .unum

end Number

/-- `data_unum` -/
def dataUnum (n : BitVec 32) : Number := ⟨false, n⟩

/-- `mix_types` -/
def mixTypes (a b : Number) : Bool := a.ipv4 || b.ipv4

def typeError2 (dsc : OpDsc) (a b : Number) : Except Error Number :=
  .error (.typeError2 dsc a.type b.type)

/-- A division by zero ends the program as well. -/
def divisionByZero : Error := .error "Floating point exception"

def additiveEval (dsc : OpDsc) (a b : Number) : Except Error Number :=
  if b.ipv4 = false ∧ b.unum = 0 then .ok a
  else if dsc = .plus ∧ a.ipv4 = false ∧ a.unum = 0 then .ok b
  else if dsc = .plus then .ok ⟨mixTypes a b, a.unum + b.unum⟩
  else .ok ⟨mixTypes a b, a.unum - b.unum⟩

def multEval (a b : Number) : Except Error Number :=
  if a.ipv4 ∨ b.ipv4 then typeError2 .mult a b
  else if a.unum = 0 then .error divisionByZero
  else if 0xffffffff / a.unum < b.unum then
    .error (.error "%lu*%lu exceeds 32 bit range")
  else .ok (dataUnum (a.unum * b.unum))

/-- `mask_eval` for `a:b`; shift counts are taken modulo 32. -/
def maskEval (a b : Number) : Except Error Number :=
  if (32 : BitVec 32).slt b.unum then
    .error (.error "mask exceeds 32 bit range")
  else
    let mask : BitVec 32 := if b.unum = 32 then .allOnes 32
      else ((1 : BitVec 32) <<< (b.unum % 32)) - 1
    .ok ⟨a.ipv4, a.unum &&& (mask <<< ((32 - b.unum) % 32))⟩

def divEval (a b : Number) : Except Error Number :=
  if a.ipv4 ∧ b.ipv4 = false then maskEval a b
  else if a.ipv4 ∨ b.ipv4 then typeError2 .div a b
  else if b.unum = 0 then .error divisionByZero
  else .ok (dataUnum (a.unum / b.unum))

/-- `~` and `!` -/
def unum1Eval (dsc : OpDsc) (a : Number) : Number :=
  if dsc = .not then ⟨a.ipv4, ~~~a.unum⟩
  else dataUnum (if a.unum = 0 then 1 else 0)

def unum2Op (dsc : OpDsc) (a b : BitVec 32) : BitVec 32 :=
  match dsc with
  | .mod => a % b
  | .and => a &&& b
  | .or => a ||| b
  | _ => a ^^^ b

def unum2Eval (dsc : OpDsc) (a b : Number) : Except Error Number :=
  if (a.ipv4 ∨ b.ipv4) ∧ dsc = .mod then typeError2 dsc a b
  else if dsc = .mod ∧ b.unum = 0 then .error divisionByZero
  else .ok ⟨mixTypes a b, unum2Op dsc a.unum b.unum⟩

def shiftEval (dsc : OpDsc) (a b : Number) : Except Error Number :=
  if b.ipv4 then typeError2 dsc a b
  else if dsc = .shiftLeft then
    if (32 ≤ b.unum ∧ a.unum ≠ 0) ∨
        (b.unum ≠ 0 ∧ a.unum >>> (32 - b.unum) ≠ 0) then
      .error (.error "left shift overflows 32 bit range")
    else .ok ⟨a.ipv4, a.unum <<< b.unum⟩
  else .ok ⟨a.ipv4, if 32 ≤ b.unum then 0 else a.unum >>> b.unum⟩

def relEval (dsc : OpDsc) (a b : Number) : Number :=
  dataUnum (if relOp dsc a.unum.toNat b.unum.toNat then 1 else 0)

/-- `op_binary` on an operator other than `&&` and `||`. -/
def binaryEval (dsc : OpDsc) (a b : Number) : Except Error Number :=
  match dsc with
  | .plus | .minus => additiveEval dsc a b
  | .mult => multEval a b
  | .div => divEval a b
  | .mod | .and | .or | .xor => unum2Eval dsc a b
  | .shiftLeft | .shiftRight => shiftEval dsc a b
  | .eq | .ne | .gt | .ge | .lt | .le => .ok (relEval dsc a b)
  | _ => .error (.error "constant expression required")

/-! ## Expressions -/

/-- The bytes from `skb->nh.raw` on, with 32-bit addresses, and
`skb->protocol` in host order. -/
structure Skb where
  raw : BitVec 32 → BitVec 8
  protocol : BitVec 16

/-- What an access of `size` bits is worth. -/
def Skb.access (skb : Skb) (root : Nat) (offset size : BitVec 32) :
    Except Error (BitVec 32) :=
  if root = 0 then
    if size = 8 then .ok ((skb.raw offset).setWidth 32)
    else if size = 16 then
      .ok ((skb.raw offset ++ skb.raw (offset + 1)).setWidth 32)
    else if size = 32 then
      .ok (skb.raw offset ++ skb.raw (offset + 1) ++ skb.raw (offset + 2) ++
        skb.raw (offset + 3))
    else .error (.error "unsupported access size")
  else if root = metaFieldRoot ∧ offset = metaProtocolOffset ∧
      size = metaProtocolSize * 8 then
    .ok (skb.protocol.setWidth 32)
  else .error (.error "unsupported field root")

/-- An expression is worth a number, or a decision is reached. -/
inductive Outcome
  | value (n : Number)
  | decision (d : Decision)
  deriving DecidableEq, Repr

/-- Operands of one operator; which one comes first is up to the compiler. -/
def inOrder (rightFirst : Bool) (x y : Outcome)
    (f : Number → Number → Except Error Number) : Except Error Outcome :=
  match x, y with
  | .value a, .value b => return .value (← f a b)
  | .value _, .decision d => .ok (.decision d)
  | .decision d, .value _ => .ok (.decision d)
  | .decision d, .decision d' => .ok (.decision (if rightFirst then d' else d))

/-- `&&` and `||` where `short` is the truth that leaves the second operand
out. -/
def shortCut (short : Bool) (x y : Outcome) : Outcome :=
  match x with
  | .decision d => .decision d
  | .value a =>
      if (a.unum != 0) = short then
        .value (dataUnum (if short then 1 else 0))
      else match y with
        | .decision d => .decision d
        | .value b => .value (dataUnum (if b.unum = 0 then 0 else 1))

def unaryOutcome (dsc : OpDsc) : Outcome → Outcome
  | .value a => .value (unum1Eval dsc a)
  | .decision d => .decision d

/-- `INTEGER_NUMBER` -/
def isInteger (t : DataType) : Bool := t = .unum ∨ t = .ipv4 ∨ t = .ipv6

/-- Decisions themselves are operands of `&&` and `||` only. -/
def isOperand (dsc : OpDsc) (t : DataType) : Bool :=
  isInteger t || ((dsc = .logicalAnd || dsc = .logicalOr) && t = .decision)

def binaryOutcome (rightFirst : Bool) (dsc : OpDsc) (x y : Outcome) :
    Except Error Outcome :=
  match dsc with
  | .logicalAnd => .ok (shortCut false x y)
  | .logicalOr => .ok (shortCut true x y)
  | _ => inOrder rightFirst x y (binaryEval dsc)

def accessOutcome (skb : Skb) (root : Nat) (size : BitVec 32) :
    Outcome → Except Error Outcome
  | .value offset => do
      let value ← skb.access root offset.unum size
      return .value (dataUnum value)
  | .decision d => .ok (.decision d)

/-- The expression evaluated with each access replaced by its value.  No
operand is left out when errors are looked for. -/
def evaluate (rightFirst : Bool) (skb : Skb) : Data → Except Error Outcome
  | .unum n => .ok (.value (dataUnum n))
  | .ipv4 n => .ok (.value ⟨true, n⟩)
  | .decision d => .ok (.decision d)
  | .op .access _ (.fieldRoot root) b (.unum size) => do
      let offset ← evaluate rightFirst skb b
      accessOutcome skb root size offset
  | .op dsc _ a b .none =>
      if b = .none ∧ (dsc = .not ∨ dsc = .logicalNot) then
        if isInteger a.type then do
          let x ← evaluate rightFirst skb a
          return unaryOutcome dsc x
        else .error (.typeError1 dsc a.type)
      else if isOperand dsc a.type && isOperand dsc b.type then do
        let x ← evaluate rightFirst skb a
        let y ← evaluate rightFirst skb b
        binaryOutcome rightFirst dsc x y
      else .error (.typeError2 dsc a.type b.type)
  | _ => .error (.error "constant expression required")

end Tcng.Op
