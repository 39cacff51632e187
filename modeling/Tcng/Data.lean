import Tcng.Lib.U128

/-! Typed data containers and operators (`data.c`, `op.c`), as far as an
if-expression contains them. -/

namespace Tcng

/-- `UNDEF_U32` -/
def undefU32 : BitVec 32 := .allOnes 32

/-! What `meta.pl` makes of `meta.tc`. -/

def metaFieldRoot : Nat := 1
def metaProtocolOffset : BitVec 32 := 0
def metaProtocolSize : BitVec 32 := 2

/-- `%x` -/
def hex (n : BitVec 32) : String := String.ofList (Nat.toDigits 16 n.toNat)

/-- The address of a `POLICE`, which stands for a policer or a bucket. -/
abbrev Bucket := Nat

/-- The address of a `CLASS`. -/
abbrev Class := Nat

/-- A `FIELD`, which is known by its age: how many fields are older. -/
abbrev Field := Nat

inductive DataType
  | none | unum | ipv4 | ipv6 | police | field | fieldRoot | decision
  deriving DecidableEq, Repr

inductive Decision
  | drContinue
  | drClass (toClass : Class)
  | drDrop
  | drReclassify (toClass : Class)
  deriving DecidableEq, Repr

inductive OpDsc
  | plus | minus | unaryMinus | mult | div | mod
  | not | and | or | xor | mask | shiftLeft | shiftRight
  | eq | ne | gt | ge | lt | le
  | logicalNot | logicalOr | logicalAnd
  | access | offset | conform | count | precond | precond2 | fieldRoot
  deriving DecidableEq, Repr

/-- Everything that ends the program with a message. -/
inductive Error
  | typeError1 (dsc : OpDsc) (a : DataType)
  | typeError2 (dsc : OpDsc) (a b : DataType)
  | dumpFailed (reason : String)
  | error (message : String)
  | assertion (condition : String)
  | outOfFuel
  deriving DecidableEq, Repr

/-- `DATA` with its operator tree; unused operands are `none`. -/
inductive Data
  | none
  | unum (n : BitVec 32)
  | ipv4 (n : BitVec 32)
  | ipv6 (n : U128)
  | police (p : Bucket)
  | field (f : Field)
  | fieldRoot (offsetGroup : Nat)
  | decision (d : Decision)
  | op (dsc : OpDsc) (type : DataType) (a b c : Data)
  deriving DecidableEq, Repr

namespace Data

def type : Data → DataType
  | none => .none
  | unum _ => .unum
  | ipv4 _ => .ipv4
  | ipv6 _ => .ipv6
  | police _ => .police
  | field _ => .field
  | fieldRoot _ => .fieldRoot
  | decision _ => .decision
  | op _ type _ _ _ => type

def isOp : Data → Bool
  | op .. => true
  | _ => false

@[match_pattern] abbrev logicalOr (a b : Data) : Data :=
  .op .logicalOr .unum a b .none

@[match_pattern] abbrev logicalAnd (a b : Data) : Data :=
  .op .logicalAnd .unum a b .none

@[match_pattern] abbrev logicalNot (a : Data) : Data :=
  .op .logicalNot .unum a .none .none

@[match_pattern] abbrev conform (p : Bucket) : Data :=
  .op .conform .unum (.police p) .none .none

@[match_pattern] abbrev count (p : Bucket) : Data :=
  .op .count .unum (.police p) .none .none

@[match_pattern] abbrev eq (a b : Data) : Data := .op .eq .unum a b .none

@[match_pattern] abbrev ne (a b : Data) : Data := .op .ne .unum a b .none

/-- Number of operators and leaves. -/
def size : Data → Nat
  | op _ _ a b c => a.size + b.size + c.size + 1
  | _ => 1

theorem size_pos (d : Data) : 0 < d.size := by
  cases d <;> simp [size]

/-- `data_equal` on two leaves: types and values agree. -/
def dataEqual (a b : Data) : Bool := a == b

/-- `expr_equal`: the types of operators are not compared. -/
def exprEqual : Data → Data → Bool
  | op dsc _ a b c, op dsc' _ a' b' c' =>
      dsc == dsc' && (a.exprEqual a' && b.exprEqual b' && c.exprEqual c')
  | op .., _ => false
  | _, op .. => false
  | a, b => dataEqual a b

theorem exprEqual_refl (d : Data) : d.exprEqual d = true := by
  induction d with
  | op dsc type a b c iha ihb ihc => simp [exprEqual, iha, ihb, ihc]
  | _ => simp [exprEqual, dataEqual]

/-- Two operator trees `exprEqual` identifies differ in operator types only. -/
theorem exprEqual_cases {d e : Data} (h : d.exprEqual e = true) :
    d = e ∨ ∃ dsc t t' a b c a' b' c',
      d = .op dsc t a b c ∧ e = .op dsc t' a' b' c' ∧
      a.exprEqual a' = true ∧ b.exprEqual b' = true ∧
      c.exprEqual c' = true := by
  cases d with
  | op dsc t a b c =>
      cases e with
      | op dsc' t' a' b' c' =>
          simp only [exprEqual, Bool.and_eq_true, beq_iff_eq] at h
          obtain ⟨rfl, ⟨ha, hb⟩, hc⟩ := h
          exact .inr ⟨dsc, t, t', a, b, c, a', b', c', rfl, rfl, ha, hb, hc⟩
      | _ => simp [exprEqual] at h
  | _ =>
      cases e with
      | op => simp [exprEqual] at h
      | _ => exact .inl (beq_iff_eq.mp h)

theorem exprEqual_symm {d e : Data} (h : d.exprEqual e = true) :
    e.exprEqual d = true := by
  induction d generalizing e with
  | op dsc t a b c iha ihb ihc =>
      cases e with
      | op dsc' t' a' b' c' =>
          simp only [exprEqual, Bool.and_eq_true, beq_iff_eq] at h ⊢
          obtain ⟨rfl, ⟨ha, hb⟩, hc⟩ := h
          exact ⟨rfl, ⟨iha ha, ihb hb⟩, ihc hc⟩
      | _ => simp [exprEqual] at h
  | _ =>
      obtain rfl | ⟨_, _, _, _, _, _, _, _, _, hd, _⟩ := exprEqual_cases h
      · exact exprEqual_refl _
      · cases hd

theorem exprEqual_trans {d e f : Data} (hde : d.exprEqual e = true)
    (hef : e.exprEqual f = true) : d.exprEqual f = true := by
  induction d generalizing e f with
  | op dsc t a b c iha ihb ihc =>
      cases e with
      | op dsc' t' a' b' c' =>
          cases f with
          | op dsc'' t'' a'' b'' c'' =>
              simp only [exprEqual, Bool.and_eq_true, beq_iff_eq]
                at hde hef ⊢
              obtain ⟨rfl, ⟨ha, hb⟩, hc⟩ := hde
              obtain ⟨rfl, ⟨ha', hb'⟩, hc'⟩ := hef
              exact ⟨rfl, ⟨iha ha ha', ihb hb hb'⟩, ihc hc hc'⟩
          | _ => simp [exprEqual] at hef
      | _ => simp [exprEqual] at hde
  | _ =>
      obtain rfl | ⟨_, _, _, _, _, _, _, _, _, hd, _⟩ := exprEqual_cases hde
      · exact hef
      · cases hd

end Data

/-- A computation succeeds where both of its parts do. -/
theorem bind_eq_ok {α β : Type} {x : Except Error α}
    {f : α → Except Error β} {b : β} :
    x >>= f = .ok b ↔ ∃ a, x = .ok a ∧ f a = .ok b := by
  cases x with
  | error e => exact ⟨fun h => (nomatch h), fun ⟨_, h, _⟩ => (nomatch h)⟩
  | ok a =>
      exact ⟨fun h => ⟨a, rfl, h⟩, fun ⟨_, h, hf⟩ => Except.ok.inj h ▸ hf⟩

def typeName : DataType → String
  | .none => "none"
  | .unum => "integer"
  | .ipv4 => "IPv4 address"
  | .ipv6 => "IPv6 address"
  | .police => "policer"
  | .field => "field"
  | .fieldRoot => "field_root"
  | .decision => "decision"

namespace Data

/-- `u.unum` -/
def unumValue : Data → BitVec 32
  | unum n | ipv4 n => n
  | _ => 0

/-- A leaf of type `dt_unum` or `dt_ipv6`. -/
def isConstant : Data → Bool
  | unum _ | ipv6 _ => true
  | _ => false

theorem not_isOp_of_isConstant {d : Data} (h : d.isConstant = true) :
    ¬d.isOp = true := by
  cases d with
  | op => cases h
  | _ => exact Bool.false_ne_true

/-- `data_convert` of such a constant to `dt_ipv6`. -/
def convertIpv6 : Data → U128
  | unum n => U128.ofBitVec32 n
  | ipv6 n => n
  | _ => U128.ofBitVec32 0

/-- `data_convert(d,dt_ipv6).u.u128` -/
def toIpv6 : Data → Except Error U128
  | op .. => .error (.error "constant expression required")
  | ipv6 n => .ok n
  | unum n | ipv4 n => .ok (.ofBitVec32 n)
  | d => .error (.error ("invalid type conversion (expected " ++
      typeName .ipv6 ++ " instead of " ++ typeName d.type ++ ")"))

end Data

/-- Passes go through all three operands, used or not. -/
def mapOperands (f : Data → Except Error Data) : Data → Except Error Data
  | .op dsc t a b c => do
      let a ← f a
      let b ← f b
      let c ← f c
      .ok (.op dsc t a b c)
  | d => .ok d

/-! Evaluation of `&&`, `||` and `!` at construction (`op_binary`,
`op_unary`): constants are folded, anything else becomes an operator. -/

def integerNumber (d : Data) : Bool :=
  d.type == .unum || d.type == .ipv4 || d.type == .ipv6

theorem integerNumber_of_type {d : Data}
    (h : d.type = .unum ∨ d.type = .ipv6) : integerNumber d = true := by
  unfold integerNumber
  rcases h with h | h <;> rw [h] <;> rfl

def constantTruth : Data → Bool
  | .unum n | .ipv4 n => n != 0
  | .ipv6 n => !n.isZero
  | _ => false

def boolUnum (value : Bool) : Data := .unum (if value then 1 else 0)

/-- `op_binary` on `op_logical_and` and `op_logical_or` (`and_or_eval`). -/
def andOrEval (dsc : OpDsc) (a b : Data) : Except Error Data :=
  if !integerNumber a && a.type != .decision then
    .error (.typeError2 dsc a.type b.type)
  else if !integerNumber b && b.type != .decision then
    .error (.typeError2 dsc a.type b.type)
  else if a.type == .decision || b.type == .decision then
    .ok (.op dsc .unum a b .none)
  else if a.isOp || b.isOp then
    .ok (.op dsc .unum a b .none)
  else if dsc = .logicalAnd then
    .ok (boolUnum (constantTruth a && constantTruth b))
  else
    .ok (boolUnum (constantTruth a || constantTruth b))

/-- `op_unary` on `op_logical_not` (`unum1_eval`). -/
def logicalNotEval (a : Data) : Except Error Data :=
  if !integerNumber a then .error (.typeError1 .logicalNot a.type)
  else if a.isOp then .ok (.op .logicalNot a.type a .none .none)
  else .ok (boolUnum (!constantTruth a))

end Tcng
