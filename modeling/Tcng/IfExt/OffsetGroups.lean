import Mathlib.Data.List.Basic
import Tcng.Data

/-! Offset groups for byte offsets that depend on the packet (`if_ext.c`). -/

namespace Tcng.IfExt

/-- `AUTO_OFFSET_GROUP_BASE` -/
def autoOffsetGroupBase : Nat := 100

/-- A line `offset number = base+(valueBase:offset:length << shift)`; the
offset is an `int`. -/
structure OffsetGroup where
  number : Nat
  base : Nat
  valueBase : Nat
  offset : BitVec 32
  length : Nat
  shift : Nat
  deriving DecidableEq, Repr

/-- `offset_groups` and `next_offset_group` -/
structure OffsetGroups where
  groups : List OffsetGroup
  next : Nat
  deriving DecidableEq, Repr

/-- `reset_offsets` -/
def OffsetGroups.reset : OffsetGroups := ⟨[], autoOffsetGroupBase⟩

theorem length_filter_succ_lt {taken : List Nat} {next : Nat}
    (h : next ∈ taken) :
    (taken.filter (next + 1 ≤ ·)).length < (taken.filter (next ≤ ·)).length := by
  rw [← List.countP_eq_length_filter, ← List.countP_eq_length_filter]
  have hle : ∀ l : List Nat,
      l.countP (next + 1 ≤ ·) ≤ l.countP (next ≤ ·) := fun l =>
    List.countP_mono_left fun n _ hn =>
      decide_eq_true (Nat.le_of_succ_le (of_decide_eq_true hn))
  obtain ⟨front, back, rfl⟩ := List.append_of_mem h
  have hfront := hle front
  have hback := hle back
  rw [List.countP_append, List.countP_append,
    List.countP_cons_of_neg (by simp), List.countP_cons_of_pos (by simp)]
  omega

-- `offset_group` of each field root
variable (taken : List Nat)

/-- `while (offset_group_taken(next_offset_group)) next_offset_group++;` -/
def skipTaken (next : Nat) : Nat :=
  if next ∈ taken then skipTaken (next + 1) else next
termination_by (taken.filter (next ≤ ·)).length
decreasing_by exact length_filter_succ_lt ‹_›

def lookupOffsetGroup (base valueBase : Nat) (offset : BitVec 32)
    (length shift : Nat) (gs : OffsetGroups) : Nat × OffsetGroups :=
  match gs.groups.find? fun g => g.base = base ∧ g.valueBase = valueBase ∧
      g.offset = offset ∧ g.length = length ∧ g.shift = shift with
  | some g => (g.number, gs)
  | none =>
      let number := skipTaken taken gs.next
      (number, ⟨gs.groups ++ [⟨number, base, valueBase, offset, length, shift⟩],
        number + 1⟩)

/-! ## `new_offset_group` -/

/-- Where the first loop ends: the constants of the access, and the variables
of the loop. -/
structure Reached where
  offset : BitVec 32
  length : BitVec 32
  mask : BitVec 32
  shift : Int
  valueBase : Nat
  deriving DecidableEq, Repr

/-- `while (!(mask & 1))` -/
def dropLow (mask : BitVec 32) (length shift : Int) : BitVec 32 × Int × Int :=
  if mask = 0 ∨ mask.getLsbD 0 = true then (mask, length, shift)
  else dropLow (mask >>> 1) (length - 1) (shift + 1)
termination_by mask.toNat
decreasing_by
  rename_i h
  have hpos : 0 < mask.toNat := by
    refine Nat.pos_of_ne_zero fun hzero => h (.inl ?_)
    exact BitVec.eq_of_toNat_eq hzero
  rw [BitVec.toNat_ushiftRight, Nat.shiftRight_eq_div_pow]
  exact Nat.div_lt_self hpos (by decide)

/-- `while (!(mask & 0x80000000))` -/
def dropHigh (mask offset : BitVec 32) (length : Nat) : BitVec 32 × Nat :=
  if mask = 0 ∨ mask.msb = true then (offset, length)
  else dropHigh (mask <<< 1) (offset + 1) (length - 1)
termination_by 2 ^ 32 - mask.toNat
decreasing_by
  rename_i h
  have hpos : 0 < mask.toNat := by
    refine Nat.pos_of_ne_zero fun hzero => h (.inl ?_)
    exact BitVec.eq_of_toNat_eq hzero
  have hlow : mask.toNat < 2 ^ 31 := by
    have hmsb := mt Or.inr h
    rw [BitVec.msb_eq_decide, decide_eq_true_eq] at hmsb
    exact Nat.not_le.mp hmsb
  rw [BitVec.toNat_shiftLeft, Nat.shiftLeft_eq,
    Nat.mod_eq_of_lt (by omega)]
  omega

/-- What follows the first loop. -/
def fieldGroup (base : Nat) (r : Reached) (gs : OffsetGroups) :
    Except Error (Nat × OffsetGroups) :=
  if r.length = 0 then .error (.assertion "length")
  else if r.mask = 0 then .ok (base, gs)
  else
    let (mask, length, shift) := dropLow r.mask r.length.toInt r.shift
    if shift < 0 then .error (.dumpFailed "negative shift")
    -- C leaves other shift counts undefined
    else if length < 1 ∨ 32 < length then .error (.assertion "32-length")
    else
      let mask := mask <<< (32 - length).toNat
      if mask = 0 then .ok (base, gs)
      else
        let (offset, length) := dropHigh mask (r.offset * 8) length.toNat
        .ok (lookupOffsetGroup taken base r.valueBase offset length
          shift.toNat gs)

mutual

/-- The first loop. -/
def descend (mask : BitVec 32) (shift : Int) (valueBase : Nat) :
    Data → OffsetGroups → Except Error (Reached × OffsetGroups)
  | .op .access _ _ (.unum offset) (.unum length), gs =>
      .ok (⟨offset, length, mask, shift, valueBase⟩, gs)
  | .op .access .., _ => .error (.assertion "d.op->b.type == dt_unum")
  | .op .shiftLeft _ a (.unum n) _, gs =>
      if n < 32 then descend (mask >>> n) (shift + n.toNat) valueBase a gs
      else .error (.assertion "shift count")
  | .op .shiftLeft .., _ => .error (.dumpFailed "bad left shift")
  | .op .shiftRight _ a (.unum n) _, gs =>
      if n < 32 then descend (mask <<< n) (shift - n.toNat) valueBase a gs
      else .error (.assertion "shift count")
  | .op .shiftRight .., _ => .error (.dumpFailed "bad right shift")
  | .op .and _ (.unum n) b _, gs => descend (mask &&& n) shift valueBase b gs
  | .op .and _ a (.unum n) _, gs => descend (mask &&& n) shift valueBase a gs
  | .op .and .., _ => .error (.dumpFailed "no constant in and")
  | .op .fieldRoot _ a (.fieldRoot root) _, gs => descend mask shift root a gs
  | .op .offset _ a b _, gs => do
      let (valueBase, gs) ← buildOffsetGroup valueBase valueBase b gs
      descend mask shift valueBase a gs
  | .op .., _ => .error (.dumpFailed "bad operator")
  | _, _ => .error (.assertion "d.op && d.op->dsc == &op_access")
termination_by d => (sizeOf d, 0)

/-- The shift starts at 3, since groups count bits and `op_offset` counts
bytes. -/
def newOffsetGroup (base valueBase : Nat) (d : Data) (gs : OffsetGroups) :
    Except Error (Nat × OffsetGroups) := do
  let (r, gs) ← descend (.allOnes 32) 3 valueBase d gs
  fieldGroup taken base r gs
termination_by (sizeOf d, 1)

def buildOffsetGroup (base valueBase : Nat) :
    Data → OffsetGroups → Except Error (Nat × OffsetGroups)
  | .op .plus _ a b _, gs => do
      let (base, gs) ← buildOffsetGroup base valueBase a gs
      buildOffsetGroup base valueBase b gs
  | d, gs => newOffsetGroup base valueBase d gs
termination_by d => (sizeOf d, 2)

end

def getOffsetGroup (d : Data) (base : Nat) (gs : OffsetGroups) :
    Except Error (Nat × OffsetGroups) :=
  match d with
  | .op .offset _ _ b _ => buildOffsetGroup taken base base b gs
  | _ => .error (.assertion "d.op && d.op->dsc == &op_offset")

end Tcng.IfExt
