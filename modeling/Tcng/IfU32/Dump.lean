import Tcng.IfU32.Actions

/-! The `u32` rules of an expression (`dump_or` of `if_u32.c`). -/

namespace Tcng.IfU32

open Program

/-- What is known about classes and buckets. -/
structure Config where
  toDecision : Class → Nat
  peakrate : Bucket → Bool
  overflow : Bucket → Option Bucket
  mpu : Bucket → Option Nat
  anyClass : Class

/-! Offsets. -/

/-- The last shift counts; right shifts are negative. -/
def offShift : Data → Int → Except Error (Data × Int)
  | .op .shiftLeft _ a b _, _ =>
      if b.isOp = true ∨ b.type ≠ .unum then .error (.dumpFailed "bad shift")
      else offShift a b.unumValue.toInt
  | .op .shiftRight _ a b _, _ =>
      if b.isOp = true ∨ b.type ≠ .unum then .error (.dumpFailed "bad shift")
      else offShift a (-b.unumValue.toInt)
  | off, shift => .ok (off, shift)

def offMask : Data → Except Error (Data × BitVec 32)
  | .op .and _ a b _ => do
      let (off, mask) ←
        if a.isOp = false ∧ a.type = .unum then .ok (b, a.unumValue)
        else if b.isOp = true ∨ b.type ≠ .unum then
          .error (.dumpFailed "non-constant and")
        else .ok (a, b.unumValue)
      if mask > 0xffff then
        .error (.error ("offset mask must be < 0x10000 (not 0x" ++
          String.ofList (Nat.toDigits 16 mask.toNat) ++ ")"))
      else .ok (off, mask)
  | off => .ok (off, 0xffff)

/-- `offset`, `mask` and `shift` of a variable offset. -/
def variableOffset (off : Data) :
    Except Error (BitVec 32 × BitVec 32 × Int) := do
  let (off, shift) ← offShift off 0
  let (off, mask) ← offMask off
  match off with
  | .op .access _ _ start bits =>
      if start.isOp = true ∨ start.type ≠ .unum then
        .error (.dumpFailed "bad offset")
      else
        let (shift, mask) :=
          if bits.unumValue.toNat / 8 = 1 then
            (shift - 8, (mask &&& 0xff) <<< 8)
          else (shift, mask)
        let odd := start.unumValue &&& 1 ≠ 0
        if odd ∧ mask &&& 0xff ≠ 0 then
          .error (.error "offset adjustment removes non-zero bits")
        else
          let (offset, shift, mask) :=
            if odd then (start.unumValue - 1, shift + 8, mask >>> 8)
            else (start.unumValue, shift, mask)
          if shift > 0 then
            .error (.error ("u32 can't left-shift (" ++ toString shift ++ ")"))
          else if shift < -15 then
            .error (.error ("u32 can't right-shift by " ++ toString (-shift)))
          else if mask = 0 then .error (.assertion "mask")
          else .ok (offset, mask, -shift)
  | _ => .error (.dumpFailed "access expected")

/-- The part of `dump_offset` between `dump_match` and `dump_link`. -/
def dumpOffsetRule (off : Data) : Emit Unit :=
  if off.isOp then do
    let (offset, mask, shift) ← lift (variableOffset off)
    tcMore fun line => { line with offsetAt := some (offset, mask, shift) }
    changeRule fun rule => { rule with offset, mask, shift }
  else if off.type ≠ .unum then throw (.dumpFailed "non-numeric offset")
  else if off.unumValue &&& 3 ≠ 0 then
    throw (.error ("offset must be a multiple of 4 (" ++
      toString off.unumValue.toNat ++ ")"))
  else do
    changeRule fun rule => { rule with plus := off.unumValue }
    tcMore fun line => { line with plus := some off.unumValue }

/-! Actions. -/

section

variable (cfg : Config)

def dumpAction (d : Data) (atEnd : Bool) : Emit Bool :=
  if actionTree d then do
    let s ← get
    let (act, actions) ← lift (s.actions.getAction cfg.toDecision d)
    modify fun s => { s with actions }
    match ← lift (mapActions cfg.peakrate cfg.overflow actions act atEnd map) with
    | none => throw (.error "don't know how to build meter for this")
    | some (out, mapMem) => do
        modify fun s => { s with mapMem }
        let rest ← issueActions cfg.mpu cfg.anyClass out false
        issueAgain cfg.mpu cfg.anyClass rest.length rest
        let s ← get
        step (.action s.isMeta out)
        if s.isMeta = .no then popRule else pure ()
        pure true
  else pure false

/-! Logical operators. -/

/-- `d.op->a.op->a.op->b.u.unum` -/
def metaFieldOffset : Data → Option (BitVec 32)
  | .op _ _ (.op _ _ (.op _ _ _ b _) _ _) _ _ => some b.unumValue
  | _ => none

/-- The test of a meta field. -/
def dumpMetaEq (d b : Data) : Emit Bool := do
  match metaFieldOffset d with
  | none => throw (.assertion "abort")
  | some offset =>
      if offset = metaProtocolOffset then do
        let s ← get
        match s.protocol with
        | none => pure false
        | some id => pure (decide (b.unumValue = id.zeroExtend 32))
      else if offset = metaNfmarkOffset ∨ offset = metaTcIndexOffset then
        setMeta offset b.unumValue
      else throw (.assertion "abort")

def isConstant (d : Data) : Bool :=
  (d.type == .unum || d.type == .ipv6) && !d.isOp

/-- The test of a packet field. -/
def dumpPacketEq (a b : Data) : Emit Bool := do
  let s ← get
  if s.isMeta = .yes then throw invalidCombination
  else do
    modify fun s => { s with isMeta := .no }
    if isConstant a then do
      let (useful, keys) ← lift (dumpEq a b s.keys)
      modify fun s => { s with keys }
      pure useful
    else if isConstant b then do
      let (useful, keys) ← lift (dumpEq b a s.keys)
      modify fun s => { s with keys }
      pure useful
    else throw (.dumpFailed "not recognized by dump_other")

def isLogicalOr : Data → Bool
  | .op .logicalOr .. => true
  | _ => false

mutual

def dumpOther (d : Data) (currHandle : Handle) (atEnd : Bool)
    (fieldRoot : Nat) : Emit Bool :=
  match d with
  | .op .logicalAnd _ _ _ _ =>
      throw (.error "internal error: && on left-hand side of &&")
  | .unum n => pure (decide (n ≠ 0))
  | .decision _ => throw (.dumpFailed "unexpected decision")
  | .op .logicalOr t a b c => do
      cachedHash
      dumpMatch
      -- dump_link
      let next ← dumpLinkRule
      let _ ← dumpOr (.op .logicalOr t a b c) next atEnd fieldRoot false
      popRule
      pure false
  | .op .fieldRoot _ a b _ =>
      dumpAnd a currHandle atEnd (b.rootOr fieldRoot)
  | .op .offset _ a b _ => do
      -- dump_offset
      cachedHash
      dumpMatch
      dumpOffsetRule b
      -- dump_link
      let next ← dumpLinkRule
      let _ ← dumpOr a next atEnd fieldRoot false
      popRule
      pure true
  | .op .eq t a b c =>
      if fieldRoot = metaFieldRoot then dumpMetaEq (.op .eq t a b c) b
      else if fieldRoot ≠ 0 then
        throw (.error "u32 only supports field root 0")
      else dumpPacketEq a b
  | _ => throw (.dumpFailed "not recognized by dump_other")
termination_by (d.size, if isLogicalOr d then 2 else 0)
decreasing_by
  all_goals first
    | exact .right _ (by simp [isLogicalOr])
    | exact .left _ _ (by simp only [Data.size]; omega)

/-- The loop of `dump_and`. -/
def dumpAndLoop (d : Data) (currHandle : Handle) (atEnd : Bool)
    (fieldRoot : Nat) : Emit Bool :=
  match d with
  | .op .logicalAnd t a b c => do
      if a matches .op .offset .. then
        throw (.dumpFailed
          "unsupported offset sequence - please try to reorder matches")
      else if ← dumpAction cfg (.op .logicalAnd t a b c) atEnd then pure true
      else if ← dumpAction cfg a atEnd then pure true
      else if ← dumpOther a currHandle atEnd fieldRoot then
        dumpAndLoop b currHandle atEnd fieldRoot
      else pure false
  | d => do
      if ← dumpAction cfg d atEnd then pure true
      else dumpOther d currHandle atEnd fieldRoot
termination_by (d.size, if isLogicalOr d then 3 else 1)
decreasing_by
  · exact .left _ _ (by simp only [Data.size]; omega)
  · exact .left _ _ (by simp only [Data.size]; omega)
  · exact .right _ (by split <;> decide)

def dumpAnd (d : Data) (currHandle : Handle) (atEnd : Bool)
    (fieldRoot : Nat) : Emit Bool :=
  if _h : isLogicalOr d = true then
    throw (.error "internal error: || on left-hand side of ||")
  else dumpAndLoop d currHandle atEnd fieldRoot
termination_by (d.size, if isLogicalOr d then 0 else 2)
decreasing_by
  exact .right _ (by rw [if_neg _h, if_neg _h]; decide)

def dumpOr (d : Data) (currHandle : Handle) (atEnd : Bool) (fieldRoot : Nat)
    (useful : Bool) : Emit Bool := do
  let currHandle := currHandle + 1
  beginMatch currHandle
  if ← dumpAction cfg d atEnd then pure true
  else
    match d with
    | .op .logicalOr _ a b _ => do
        let this ← dumpAnd a currHandle false fieldRoot
        dumpOr b currHandle atEnd fieldRoot (useful || this)
    | d => do
        let this ← dumpAnd d currHandle atEnd fieldRoot
        pure (this || useful)
termination_by (d.size, if isLogicalOr d then 1 else 3)
decreasing_by
  · exact .left _ _ (by simp only [Data.size]; omega)
  · exact .left _ _ (by simp only [Data.size]; omega)
  · exact .right _ (by split <;> decide)

end

/-- One pass of `dump_if_u32`, for a protocol or for all. -/
def dumpPass (d : Data) (protocol : Option (BitVec 16)) : Emit Unit := do
  modify fun s => { s with protocol, lastMeta := .undecided }
  nextHash
  let _ ← dumpOr cfg d u32Root true 0 false
  pure ()

/-- The loop of `dump_if_u32`: protocols one after the other, and at last a
pass without. -/
def dumpPasses (d : Data) : List (BitVec 16) → Emit Unit
  | [] => dumpPass cfg d none
  | protocol :: protocols => do
      dumpPass cfg d (some protocol)
      modify fun s => { s with prioOffset := s.prioOffset + 1 }
      let _ ← newHandle
      dumpPasses d protocols

end

end Tcng.IfU32
