import Tcng.Iflib.FastBit
import Tcng.Semantics

/-! Construction of the diagram of single-bit decisions (`iflib_fastbit.c`). -/

namespace Tcng.FastBit

section

-- `class->number`
variable (classNumber : Class → Number)

def decisionToNumber : Decision → Number
  | .drDrop => dropTag
  | .drContinue => continueTag
  | .drClass toClass => classTag ||| classNumber toClass
  | .drReclassify toClass => reclassifyTag ||| classNumber toClass

end

/-- `make_bit` -/
def Bits.make (bits : Bits) (number : Number) (onTrue onFalse : Option Nat) :
    Bits :=
  bits.alloc ⟨number, false, -1, fun edge => if edge then onTrue else onFalse⟩

/-- What `eq_dag` knows when it has found the access. -/
structure EqOperand where
  offset : Data
  size : Data
  fieldMask : Number
  valueMask : Number
  shift : Int
  offsetGroup : Nat

section

-- `get_offset_group`, after `scan_offsets` has found all groups
variable (getOffsetGroup : Data → Nat → Nat)

def eqOperand : Data → Number → Number → Int → Nat → Except Stop EqOperand
  | .op .access _ _ b c, fieldMask, valueMask, shift, offsetGroup =>
      .ok ⟨b, c, fieldMask, valueMask, shift, offsetGroup⟩
  | .op .fieldRoot _ a b _, fieldMask, valueMask, shift, offsetGroup =>
      eqOperand a fieldMask valueMask shift (b.rootOr offsetGroup)
  | .op .offset t a b c, fieldMask, valueMask, shift, offsetGroup =>
      eqOperand a fieldMask valueMask shift
        (getOffsetGroup (.op .offset t a b c) offsetGroup)
  | .op .shiftLeft _ a (.unum n) _, fieldMask, valueMask, shift, offsetGroup =>
      -- C leaves other shift counts undefined
      if 32 ≤ n.toNat then .error .shiftCount
      else
        eqOperand a (fieldMask >>> n.toNat) (valueMask >>> n.toNat)
          (shift - n.toNat) offsetGroup
  | .op .shiftRight _ a (.unum n) _, fieldMask, valueMask, shift, offsetGroup =>
      if 32 ≤ n.toNat then .error .shiftCount
      else
        eqOperand a (fieldMask <<< n.toNat) (valueMask <<< n.toNat)
          (shift + n.toNat) offsetGroup
  | .op .and _ (.unum n) b _, fieldMask, valueMask, shift, offsetGroup =>
      eqOperand b (fieldMask &&& n) (valueMask &&& n) shift offsetGroup
  | .op .and _ a (.unum n) _, fieldMask, valueMask, shift, offsetGroup =>
      eqOperand a (fieldMask &&& n) (valueMask &&& n) shift offsetGroup
  | .op .shiftLeft .., _, _, _, _ | .op .shiftRight .., _, _, _, _
  | .op .and .., _, _, _, _ => .error (.dumpFailed "bad shift")
  | .op .., _, _, _, _ => .error (.dumpFailed "bad operator")
  | _, _, _, _, _ => .error (.dumpFailed "operator expected")

-- `police->number` and `class->number`
variable (policeNumber : Bucket → Number) (classNumber : Class → Number)

/-- No bits yet. -/
def Bits.empty : Bits := ⟨0, fun _ => ⟨0, false, -1, fun _ => none⟩⟩

end

end Tcng.FastBit
