import Tcng.Lib.CArith
import Tcng.Op

/-! The C function made from an if-expression (`if_c.c`, `tcm_cls.c`). -/

namespace Tcng.IfC

open CArith
open Tcng.Op

/-- First argument of `RESULT`. -/
inductive PoliceCode
  | ok | reclassify | shot | unspec
  deriving DecidableEq, Repr

/-- The expression that is printed. -/
inductive CExpr
  | constant (n : BitVec 32)
  | result (code : PoliceCode) (n : Nat)
  | unary (dsc : OpDsc) (a : CExpr)
  | binary (dsc : OpDsc) (a b : CExpr)
  | access (size : BitVec 32) (offset : CExpr)
  | accessMetaProtocol
  deriving DecidableEq, Repr

/-! ## Printing -/

def maxCResults : Nat := 4096

/-- What is kept between calls: `class`, of which `results` is the length. -/
abbrev Dump := StateT (List (BitVec 32)) (Except Error)

def dumpFailed {α : Type} (reason : String) : Dump α :=
  throw (.dumpFailed reason)

section

/-! `classId` is made of the numbers of a class and its qdisc. -/

variable (classId : Class → BitVec 32)

def dumpResult (code : PoliceCode) (toClass : Class) : Dump CExpr := fun table =>
  if maxCResults ≤ table.length then
    .error (.error "too many results in if_c (max 4096)")
  else .ok (.result code table.length, table ++ [classId toClass])

def dumpCData : Data → Dump CExpr
  | .unum n | .ipv4 n => pure (.constant n)
  | .decision (.drClass c) => dumpResult classId .ok c
  | .decision (.drReclassify c) => dumpResult classId .reclassify c
  | .decision .drDrop => pure (.result .shot 0)
  | .decision .drContinue => pure (.result .unspec 0)
  | _ => dumpFailed "bad type"

/-- The operators that go to `dump_math_op`. -/
def isMathOp : OpDsc → Bool
  | .plus | .minus | .mult | .div | .mod | .not | .and | .or | .xor
  | .shiftLeft | .shiftRight | .eq | .ne | .gt | .le | .ge | .lt
  | .logicalNot | .logicalOr | .logicalAnd => true
  | _ => false

/-- The part of `dump_c_op` for `op_access`; `dumpOffset` dumps `b`. -/
def dumpAccess (a b c : Data) (dumpOffset : Dump CExpr) : Dump CExpr :=
  match a with
  | .fieldRoot offsetGroup =>
      if offsetGroup ≠ 0 then
        if offsetGroup ≠ metaFieldRoot then
          throw (.error "\"c\" only supports field roots 0 and 1")
        else if b ≠ .unum metaProtocolOffset then
          throw (.error "invalid offset for meta_protocol")
        else if c ≠ .unum (metaProtocolSize * 8) then
          throw (.error "invalid size for meta_protocol access")
        else pure .accessMetaProtocol
      else do
        let offset ← dumpOffset
        return .access c.unumValue offset
  | _ => dumpFailed "invalid access base"

/-- Policers are left out: nothing evaluates them to a number. -/
def dumpCExpr : Data → Dump CExpr
  | .op dsc _ a b c =>
      if isMathOp dsc then
        if b.type = .none then do
          let x ← dumpCExpr a
          return .unary dsc x
        else do
          let x ← dumpCExpr a
          let y ← dumpCExpr b
          return .binary dsc x y
      else if dsc = .access then dumpAccess a b c (dumpCExpr b)
      else dumpFailed "bad operator"
  | d => dumpCData classId d

end

/-! ## Running -/

/-- What keeps an expression from having a value. -/
inductive Stop
  | undefined
  | returned (code : PoliceCode) (n : Nat)
  deriving DecidableEq, Repr

def cOp : OpDsc → Option BinOp
  | .plus => some .add
  | .minus => some .sub
  | .mult => some .mul
  | .div => some .div
  | .mod => some .mod
  | .and => some .and
  | .or => some .or
  | .xor => some .xor
  | .shiftLeft => some .shl
  | .shiftRight => some .shr
  | .eq => some .eq
  | .ne => some .ne
  | .gt => some .gt
  | .ge => some .ge
  | .lt => some .lt
  | .le => some .le
  | _ => none

/-- `ACCESS8` and `ACCESS16` are promoted. -/
def accessType (size : BitVec 32) : IntType :=
  if size = 32 then .unsigned else .int

def runAccess (skb : Skb) (root : Nat) (offset size : BitVec 32) :
    Except Stop Value :=
  match skb.access root offset size with
  | .ok n => .ok ⟨accessType size, n⟩
  | .error _ => .error .undefined

def runUnary (dsc : OpDsc) (x : Value) : Except Stop Value :=
  match dsc with
  | .not => .ok ⟨x.type, ~~~x.bits⟩
  | .logicalNot => .ok ⟨.int, truth (x.bits == 0)⟩
  | _ => .error .undefined

def runBinary (dsc : OpDsc) (x y : Value) : Except Stop Value :=
  match cOp dsc with
  | none => .error .undefined
  | some op =>
      match CArith.binary op x y with
      | none => .error .undefined
      | some z => .ok z

/-- The second operand of `&&` and `||`, unless the first one has the truth
that leaves it out. -/
def runShortCut (short : Bool) (x : Value) (b : Except Stop Value) :
    Except Stop Value :=
  if (x.bits != 0) = short then .ok ⟨.int, truth short⟩
  else do
    let y ← b
    return ⟨.int, truth (y.bits != 0)⟩

def runCExpr (rightFirst : Bool) (skb : Skb) : CExpr → Except Stop Value
  | .constant n => .ok ⟨constantType n, n⟩
  | .result code n => .error (.returned code n)
  | .unary dsc a => do
      let x ← runCExpr rightFirst skb a
      runUnary dsc x
  | .binary .logicalAnd a b => do
      let x ← runCExpr rightFirst skb a
      runShortCut false x (runCExpr rightFirst skb b)
  | .binary .logicalOr a b => do
      let x ← runCExpr rightFirst skb a
      runShortCut true x (runCExpr rightFirst skb b)
  | .binary dsc a b =>
      if rightFirst then do
        let y ← runCExpr rightFirst skb b
        let x ← runCExpr rightFirst skb a
        runBinary dsc x y
      else do
        let x ← runCExpr rightFirst skb a
        let y ← runCExpr rightFirst skb b
        runBinary dsc x y
  | .access size offset => do
      let offset ← runCExpr rightFirst skb offset
      runAccess skb 0 offset.bits size
  | .accessMetaProtocol => .ok ⟨.int, skb.protocol.setWidth 32⟩

/-- What the classifier returns; `class` is the entry of `results`. -/
inductive Verdict
  | ok (classId : BitVec 32)
  | reclassify (classId : BitVec 32)
  | shot
  | unspec
  deriving DecidableEq, Repr

def PoliceCode.verdict (code : PoliceCode) (classId : Option (BitVec 32)) :
    Option Verdict :=
  match code with
  | .ok => classId.map .ok
  | .reclassify => classId.map .reclassify
  | .shot => some .shot
  | .unspec => some .unspec

/-- `NAME_classify`; `none` where C leaves it open. -/
def classify (rightFirst : Bool) (skb : Skb) (e : CExpr)
    (table : List (BitVec 32)) : Option Verdict :=
  match runCExpr rightFirst skb e with
  | .ok _ => some .unspec
  | .error (.returned code n) => code.verdict table[n]?
  | .error .undefined => none

end Tcng.IfC
