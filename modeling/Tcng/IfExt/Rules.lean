import Tcng.Iflib.ActionDb
import Tcng.Iflib.SelfContained

/-! Rules for an external matcher (`if_ext.c`). -/

namespace Tcng.IfExt

structure BitMatch where
  offsetGroup : Nat
  offset : Nat
  value : Bool
  deriving DecidableEq, Repr

/-- One `group:offset:length=0x..` of a rule. -/
structure Match where
  offsetGroup : Nat
  offset : Nat
  length : Nat
  digits : List Nat
  deriving DecidableEq, Repr

/-- A line `match .. action ..`, with the action whose number it shows. -/
structure Rule where
  tests : List Match
  action : Action
  deriving DecidableEq, Repr

/-- `bits`, and the rules printed so far. -/
structure Output where
  bits : List BitMatch
  rules : List Rule
  deriving DecidableEq, Repr

/-! Actions. -/

def dumpActions (toDecision : Class → Nat) :
    Data → ActionDb → Except Error ActionDb
  | .op dsc t a b c, db =>
      if actionTree (.op dsc t a b c) then
        db.registerActions toDecision (.op dsc t a b c)
      else do
        let db ← dumpActions toDecision a db
        let db ← dumpActions toDecision b db
        dumpActions toDecision c db
  | d, db => if actionTree d then db.registerActions toDecision d else .ok db

/-! Bits. -/

/-- The inner loop: `i` is exchanged with what has to stand before it. -/
def sortAgainst (i : BitMatch) : List BitMatch → BitMatch × List BitMatch
  | [] => (i, [])
  | j :: js =>
      if i.offsetGroup = j.offsetGroup ∧ i.offset > j.offset then
        let (first, js) := sortAgainst j js
        (first, i :: js)
      else
        let (first, js) := sortAgainst i js
        (first, j :: js)

theorem length_sortAgainst (i : BitMatch) (js : List BitMatch) :
    (sortAgainst i js).2.length = js.length := by
  induction js generalizing i with
  | nil => rfl
  | cons j js ih =>
      unfold sortAgainst
      split
      · exact congrArg (· + 1) (ih j)
      · exact congrArg (· + 1) (ih i)

def sortBits : List BitMatch → List BitMatch
  | [] => []
  | i :: js => (sortAgainst i js).1 :: sortBits (sortAgainst i js).2
termination_by bits => bits.length
decreasing_by
  rw [length_sortAgainst]
  exact Nat.lt_succ_self _

/-- The bits after `walk` that go on where the one before ends. -/
def scanBits (offsetGroup nextOffset : Nat) :
    List BitMatch → List BitMatch × List BitMatch
  | [] => ([], [])
  | bit :: bits =>
      if offsetGroup = bit.offsetGroup ∧ bit.offset = nextOffset + 1 then
        let (scan, bits) := scanBits offsetGroup (nextOffset + 1) bits
        (bit :: scan, bits)
      else ([], bit :: bits)

theorem scanBits_append (offsetGroup nextOffset : Nat)
    (bits : List BitMatch) :
    (scanBits offsetGroup nextOffset bits).1 ++
      (scanBits offsetGroup nextOffset bits).2 = bits := by
  induction bits generalizing nextOffset with
  | nil => rfl
  | cons bit bits ih =>
      unfold scanBits
      split
      · exact congrArg (bit :: ·) (ih (nextOffset + 1))
      · rfl

/-- Hexadecimal digits; the first one may stand for less than four bits. -/
def nibbles (nibble : Nat) : List Bool → List Nat
  | [] => []
  | value :: values =>
      let nibble := nibble ||| value.toNat <<< (values.length % 4)
      if values.length % 4 = 0 then nibble :: nibbles 0 values
      else nibbles nibble values

def collectBits : List BitMatch → List Match
  | [] => []
  | walk :: bits =>
      let scan := scanBits walk.offsetGroup walk.offset bits
      ⟨walk.offsetGroup, walk.offset, scan.1.length + 1,
        nibbles 0 ((walk :: scan.1).map (·.value))⟩ :: collectBits scan.2
termination_by bits => bits.length
decreasing_by
  have happend := scanBits_append walk.offsetGroup walk.offset bits
  have hlength := congrArg List.length happend
  rw [List.length_append] at hlength
  simp only [List.length_cons]
  exact Nat.lt_succ_of_le (hlength ▸ Nat.le_add_left _ _)

/-- The bit is added, is redundant, or is in conflict (`none`). -/
def bitMatch (offsetGroup offset : Nat) (value : Bool)
    (bits : List BitMatch) : Option (List BitMatch) :=
  match bits.find? fun bit =>
      bit.offsetGroup == offsetGroup && bit.offset == offset with
  | some bit => if bit.value = value then some bits else none
  | none => some (bits ++ [⟨offsetGroup, offset, value⟩])

/-- The loop over one word, for as many bits as there are. -/
def wordMatch (offsetGroup : Nat) : Nat → Nat → BitVec 32 → BitVec 32 →
    List BitMatch → Bool × List BitMatch
  | 0, _, _, _, bits => (true, bits)
  | left + 1, off, mask, value, bits =>
      if mask = 0 then (true, bits)
      else if mask.msb then
        match bitMatch offsetGroup off value.msb bits with
        | none => (false, bits)
        | some bits =>
            wordMatch offsetGroup left (off + 1) (mask <<< 1) (value <<< 1) bits
      else wordMatch offsetGroup left (off + 1) (mask <<< 1) (value <<< 1) bits

def doDecomposeMatch (offsetGroup offset : Nat) (mask value : U128)
    (bits : List BitMatch) : Bool × List BitMatch :=
  [3, 2, 1, 0].foldl (fun (ok, bits) i =>
    if ok then
      wordMatch offsetGroup 32 (offset + (3 - i) * 32) (mask.word i)
        (value.word i) bits
    else (ok, bits)) (true, bits)

def decomposeMatch (offsetGroup offset : Nat) (length : BitVec 32)
    (mask value : U128) (bits : List BitMatch) : Bool × List BitMatch :=
  if !(value.and mask.not).isZero then (false, bits)
  else
    doDecomposeMatch offsetGroup offset (mask.shiftLeft (128 - length))
      (value.shiftLeft (128 - length)) bits

section

-- `get_offset_group`, after `scan_offsets` has found all groups
variable (getOffsetGroup : Data → Nat → Nat)

/-- `a` from the operators around the access to the access itself. -/
def matchOperand : Data → Nat → U128 → Except Error (Data × Nat × U128)
  | .op .access t a b c, offsetGroup, mask =>
      .ok (.op .access t a b c, offsetGroup, mask)
  | .op .and _ a b _, offsetGroup, mask =>
      if b.isOp || (b.type != .unum && b.type != .ipv6) then
        .error (.dumpFailed "must be \"& constant\"")
      else do
        let n ← b.toIpv6
        matchOperand a offsetGroup (mask.and n)
  | .op .fieldRoot _ a b _, offsetGroup, mask =>
      matchOperand a (b.rootOr offsetGroup) mask
  | .op .offset t a b c, offsetGroup, mask =>
      matchOperand a (getOffsetGroup (.op .offset t a b c) offsetGroup) mask
  | .op .., _, _ => .error (.dumpFailed "bad operator")
  | _, _, _ => .error (.dumpFailed "access expected")

def dumpMatch (d : Data) (offsetGroup : Nat) (bits : List BitMatch) :
    Except Error (Bool × List BitMatch) :=
  match d with
  | .op .eq _ a b _ => do
      let (a, b) ←
        if a.isOp then .ok (a, b)
        else if b.isOp then .ok (b, a)
        else .error (.dumpFailed "constant expression")
      if b.type ≠ .unum ∧ b.type ≠ .ipv6 then
        .error (.dumpFailed "eq non-number")
      else do
        let (access, offsetGroup, mask) ←
          matchOperand getOffsetGroup a offsetGroup (U128.ofBitVec32 0).not
        match access with
        | .op _ _ _ offset length =>
            if length.unumValue = 0 then .error (.assertion "bits")
            else do
              let value ← b.toIpv6
              .ok (decomposeMatch offsetGroup (offset.unumValue * 8).toNat
                length.unumValue mask value bits)
        | _ => .error (.dumpFailed "access expected")
  | _ => .error (.assertion "d.op && d.op->dsc == &op_eq")

/-! Rules. -/

/-- The action of `get_action`, before it is looked up in the tables. -/
def treeAction (d : Data) : Except Error Action := do
  let action ← addActions d .none .none
  .ok (repeatedActions [] action)

def dumpAction (d : Data) (out : Output) : Except Error Output := do
  let action ← treeAction d
  .ok ⟨[], out.rules ++ [⟨collectBits (sortBits out.bits), action⟩]⟩

mutual

def dumpOther (d : Data) (offsetGroup : Nat) (out : Output) :
    Except Error (Bool × Output) :=
  match d with
  | .op .eq t a b c => do
      let (ok, bits) ← dumpMatch getOffsetGroup (.op .eq t a b c) offsetGroup
        out.bits
      .ok (ok, { out with bits })
  | d =>
      if actionTree d then do
        let out ← dumpAction d out
        .ok (true, out)
      else
        match d with
        | .op .fieldRoot _ a b _ => dumpOr a (b.rootOr offsetGroup) out
        | .op .offset t a b c =>
            dumpOr a (getOffsetGroup (.op .offset t a b c) offsetGroup) out
        | _ => .error (.dumpFailed "bad operator")
termination_by (d.size, 0)
decreasing_by
  all_goals first
    | exact .right _ (by decide)
    | exact .left _ _ (by simp only [Data.size]; omega)

def dumpAnd (d : Data) (offsetGroup : Nat) (out : Output) :
    Except Error (Bool × Output) :=
  match d with
  | .op .logicalAnd t a b c =>
      if actionTree (.op .logicalAnd t a b c) then
        dumpOther (.op .logicalAnd t a b c) offsetGroup out
      else do
        let (ok, out) ← dumpOther a offsetGroup out
        if ok then dumpAnd b offsetGroup out
        else .ok (false, { out with bits := [] })
  | d => dumpOther d offsetGroup out
termination_by (d.size, 1)
decreasing_by
  all_goals first
    | exact .right _ (by decide)
    | exact .left _ _ (by simp only [Data.size]; omega)

/-- The result is the last one, or `useful`, which is 1 from the start. -/
def dumpOr (d : Data) (offsetGroup : Nat) (out : Output) :
    Except Error (Bool × Output) :=
  match d with
  | .op .logicalOr t a b c =>
      if actionTree (.op .logicalOr t a b c) then do
        let (_, out) ← dumpAnd (.op .logicalOr t a b c) offsetGroup out
        .ok (true, out)
      else do
        let (_, out) ← dumpAnd a offsetGroup out
        dumpOr b offsetGroup out
  | d => do
      let (_, out) ← dumpAnd d offsetGroup out
      .ok (true, out)
termination_by (d.size, 2)
decreasing_by
  all_goals first
    | exact .right _ (by decide)
    | exact .left _ _ (by simp only [Data.size]; omega)

end

def dumpRules (d : Data) : Except Error (List Rule) := do
  let (_, out) ← dumpOr getOffsetGroup d 0 ⟨[], []⟩
  .ok out.rules

end

end Tcng.IfExt
