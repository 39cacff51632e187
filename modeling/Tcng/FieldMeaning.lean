import Mathlib.Order.Filter.AtTopBot.Basic
import Tcng.FieldExpand
import Tcng.Formula

/-! Expressions on fields, and when expansion keeps their meaning. -/

namespace Tcng

open Filter

/-! ## What fields stand for -/

/-- One of several nested accesses; a size that is not given is zero. -/
structure AccessLink where
  offset : Data
  size : BitVec 32

/-- The outermost size that is given. -/
def outermostSize (links : List AccessLink) : BitVec 32 :=
  ((links.map AccessLink.size).find? (· ≠ 0)).getD 8

/-- The sum of all offsets that are given, from the outermost on. -/
def sumOffsets (offset : Data) : List AccessLink → Except Error Data
  | [] => .ok offset
  | link :: links => do
      let offset ← composeOffset offset link.offset
      sumOffsets offset links

/-- An access of a field without offset and size is the field itself. -/
def AccessLink.plain (link : AccessLink) : Bool :=
  link.offset.type = .none && link.size = 0

/-- Not the first two accesses lack a size that another one gives, unless that
one would be taken anyway. -/
def SizeKept (links : List AccessLink) : Prop :=
  match links.dropWhile AccessLink.plain with
  | first :: second :: rest =>
      first.size = 0 → second.size = 0 → outermostSize rest = 8
  | _ => True

instance (links : List AccessLink) : Decidable (SizeKept links) := by
  unfold SizeKept
  split
  · infer_instance
  · exact .isTrue trivial

/-- What is said by an expression, or by what is accessed: the expression
without fields, the nested accesses from the outermost on, the conditions of
all fields that are used, the truth, and whether the accesses can be
composed. -/
structure FieldMeaning where
  raw : Data
  root : Nat
  links : List AccessLink
  conditions : Packet → Bool
  truth : Packet → Bool
  composes : Prop

namespace FieldMeaning

/-- The offsets can be added, and no size is lost. -/
structure Composes (m : FieldMeaning) : Prop where
  parts : m.composes
  sum : ∃ sum, sumOffsets .none m.links = .ok sum
  size : SizeKept m.links

/-- The offset of all accesses together. -/
def offset (links : List AccessLink) : Data :=
  match sumOffsets .none links with
  | .ok sum => if sum.type = .none then .unum 0 else sum
  | .error _ => .none

/-- The test of an expression for being true, after all conditions. -/
def tested (raw : Data) (conditions : Packet → Bool) (packet : Packet) : Bool :=
  conditions packet && decide (raw.num packet .start ≠ 0)

def leaf (d : Data) : FieldMeaning where
  raw := d
  root := 0
  links := []
  conditions _ := true
  truth := tested d fun _ => true
  composes := True

def access (t : DataType) (x y z : FieldMeaning) : FieldMeaning :=
  let links := ⟨y.raw, z.raw.unumValue⟩ :: x.links
  let raw := .op .access t (.fieldRoot x.root) (offset links)
    (.unum (outermostSize links))
  let conditions packet := x.conditions packet && y.conditions packet
  { raw
    root := x.root
    links
    conditions
    truth := tested raw conditions
    composes := x.composes ∧ y.Composes }

/-- What is accessed, under a condition. -/
def precond (x condition : FieldMeaning) : FieldMeaning :=
  { x with
    conditions := fun packet => condition.truth packet && x.conditions packet
    composes := condition.Composes ∧ x.composes }

def operator (dsc : OpDsc) (t : DataType) (x y z : FieldMeaning) :
    FieldMeaning :=
  let raw := .op dsc t x.raw y.raw z.raw
  let conditions packet :=
    x.conditions packet && y.conditions packet && z.conditions packet
  { raw
    root := 0
    links := []
    conditions
    truth := match dsc with
      | .logicalAnd => fun packet => x.truth packet && y.truth packet
      | .logicalOr => fun packet => x.truth packet || y.truth packet
      | .logicalNot => fun packet => !x.truth packet
      | _ => tested raw conditions
    composes := x.Composes ∧ y.Composes ∧ z.Composes }

end FieldMeaning

/-- The meaning of an expression, given that of all fields. Each test is made
after the conditions of the fields it uses. -/
def Data.meaning (fields : Field → FieldMeaning) : Data → FieldMeaning
  | .field f => fields f
  | .fieldRoot root => { FieldMeaning.leaf (.fieldRoot root) with root }
  | .op dsc t a b c =>
      match dsc with
      | .access => .access t (a.meaning fields) (b.meaning fields)
          (c.meaning fields)
      | .precond2 => (a.meaning fields).precond (b.meaning fields)
      | dsc => .operator dsc t (a.meaning fields) (b.meaning fields)
          (c.meaning fields)
  | d => .leaf d

namespace FieldTable

variable (table : FieldTable)

/-- What a field accesses, under its condition. -/
def definition (f : Field) : Data :=
  if (table.condition f).type = .none then table.access f
  else .op .precond2 (table.access f).type (table.access f)
    (table.condition f) .none

open Classical in
/-- The meaning of fields that are defined by older ones. -/
noncomputable def meaning {older : Field → Field → Prop}
    (hacyclic : WellFounded older) : Field → FieldMeaning :=
  hacyclic.fix fun f known => (table.definition f).meaning fun g =>
    if h : older g f then known g h else .leaf .none

end FieldTable

/-! ## Expressions on fields -/

inductive FieldRole
  | formula
  | number
  | base
  deriving DecidableEq, Repr

/-- Operators of numbers. -/
def OpDsc.computes (dsc : OpDsc) : Bool :=
  dsc.relational || (dsc.arithmetic &&
    !(dsc = .access || dsc = .offset || dsc = .fieldRoot))

/-- Formulas over tests of numbers, and what they may access. Fields must be
known; where `preconditions` are allowed, these are the conditions of fields
that have been replaced. -/
inductive FieldExpr (known : Field → Prop) (preconditions : Prop) :
    FieldRole → Data → Prop
  | test {d : Data} (hd : integerNumber d = true)
      (h : FieldExpr known preconditions .number d) :
      FieldExpr known preconditions .formula d
  | and {a b : Data} (ha : FieldExpr known preconditions .formula a)
      (hb : FieldExpr known preconditions .formula b) :
      FieldExpr known preconditions .formula (.logicalAnd a b)
  | or {a b : Data} (ha : FieldExpr known preconditions .formula a)
      (hb : FieldExpr known preconditions .formula b) :
      FieldExpr known preconditions .formula (.logicalOr a b)
  | not {a : Data} (ha : FieldExpr known preconditions .formula a) :
      FieldExpr known preconditions .formula (.logicalNot a)
  | none : FieldExpr known preconditions .number .none
  | unum (n : BitVec 32) : FieldExpr known preconditions .number (.unum n)
  | ipv4 (n : BitVec 32) : FieldExpr known preconditions .number (.ipv4 n)
  | ipv6 (n : U128) : FieldExpr known preconditions .number (.ipv6 n)
  | op {dsc : OpDsc} {t : DataType} {a b c : Data}
      (hdsc : dsc.computes = true) (ht : t = .unum ∨ t = .ipv4 ∨ t = .ipv6)
      (ha : FieldExpr known preconditions .number a)
      (hb : FieldExpr known preconditions .number b)
      (hc : FieldExpr known preconditions .number c) :
      FieldExpr known preconditions .number (.op dsc t a b c)
  | access {t : DataType} {a b : Data} (n : BitVec 32)
      (ht : t = .unum ∨ t = .ipv4 ∨ t = .ipv6)
      (ha : FieldExpr known preconditions .base a)
      (hb : FieldExpr known preconditions .number b) :
      FieldExpr known preconditions .number (.op .access t a b (.unum n))
  | field {f : Field} (hf : known f) :
      FieldExpr known preconditions .base (.field f)
  | fieldRoot (root : Nat) :
      FieldExpr known preconditions .base (.fieldRoot root)
  | inner {t : DataType} {a b : Data} (n : BitVec 32)
      (ht : t = .unum ∨ t = .ipv4 ∨ t = .ipv6)
      (ha : FieldExpr known preconditions .base a)
      (hb : FieldExpr known preconditions .number b) :
      FieldExpr known preconditions .base (.op .access t a b (.unum n))
  | precond2 (h : preconditions) {t : DataType} {a b : Data}
      (ht : t = .unum ∨ t = .ipv4 ∨ t = .ipv6)
      (ha : FieldExpr known preconditions .base a)
      (hop : a.isAccess = true)
      (hb : FieldExpr known preconditions .formula b) :
      FieldExpr known preconditions .base (.op .precond2 t a b .none)

/-- Each field accesses what older fields access, under a condition on older
fields or under no condition. -/
structure FieldTable.WellDefined (table : FieldTable)
    (older : Field → Field → Prop) : Prop where
  acyclic : WellFounded older
  isAccess (f : Field) : (table.access f).isAccess = true
  access (f : Field) :
    FieldExpr (older · f) False .base (table.access f)
  condition (f : Field) : table.condition f = .none ∨
    FieldExpr (older · f) False .formula (table.condition f)

/-- No field is referred to. -/
def Data.fieldFree : Data → Bool
  | field _ => false
  | op _ _ a b c => a.fieldFree && (b.fieldFree && c.fieldFree)
  | _ => true

end Tcng
