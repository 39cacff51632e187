import Tcng.Data

/-! The keys a `u32` rule matches (`add_key`, `tc_match` and `dump_eq` of
`if_u32.c`). -/

namespace Tcng.IfU32

def maxU32Keys : Nat := 1024

/-- An entry of `key`; offsets are `int`s. -/
structure Key where
  bits : Nat
  origOffset : BitVec 32
  offset : BitVec 32
  value : BitVec 32
  mask : BitVec 32
  deriving DecidableEq, Repr

/-- The key in the 32 bit word it is part of. -/
def alignKey (bits : Nat) (value mask offset : BitVec 32) : Key :=
  let k : Key := ⟨bits, offset, offset, value, mask⟩
  let k :=
    if bits = 8 ∧ k.offset &&& 1 ≠ 0 then
      { k with
        offset := k.offset - 1, value := k.value >>> 8, mask := k.mask >>> 8 }
    else k
  if (bits = 8 ∨ bits = 16) ∧ k.offset &&& 2 ≠ 0 then
    { k with
      offset := k.offset - 2, value := k.value >>> 16, mask := k.mask >>> 16 }
  else k

/-- The loop over the keys stored: `new` contradicts one, is merged into one
or goes to the end. -/
def storeKey (new : Key) : List Key → Bool × List Key
  | [] => (true, [new])
  | k :: keys =>
      if k.offset = new.offset ∧ (k.value ^^^ new.value) &&& k.mask &&& new.mask ≠ 0
      then (false, k :: keys)
      else if k.offset = new.offset ∧ k.bits = new.bits ∧
          k.origOffset = new.origOffset then
        (true, { k with
          value := k.value ||| new.value, mask := k.mask ||| new.mask } :: keys)
      else
        let (ok, keys) := storeKey new keys
        (ok, k :: keys)

def addKey (bits : Nat) (value mask offset : BitVec 32) (keys : List Key) :
    Except Error (Bool × List Key) :=
  if keys.length = maxU32Keys then
    .error (.error ("too many u32 keys (max " ++ toString maxU32Keys ++ ")"))
  else .ok (storeKey (alignKey bits value mask offset) keys)

/-- What is left of a comparison, and the keys so far. -/
structure Comparison where
  value : U128
  mask : U128
  offset : BitVec 32
  bytes : Nat
  keys : List Key
  useful : Bool

def tcMatch (bits : Nat) (c : Comparison) : Except Error Comparison :=
  let size := bits / 8
  if c.bytes < size ∨ c.offset &&& (BitVec.ofNat 32 size - 1) ≠ 0 then .ok c
  else do
    let (useful, keys) ← addKey bits c.value.v3 c.mask.v3 c.offset c.keys
    .ok ⟨c.value.shiftLeft (BitVec.ofNat 32 bits),
      c.mask.shiftLeft (BitVec.ofNat 32 bits), c.offset + BitVec.ofNat 32 size,
      c.bytes - size, keys, c.useful && useful⟩

/-- `while (bytes > 3 && !(offset & 3)) tc_match(32,..)` -/
def tcMatchWords : Nat → Comparison → Except Error Comparison
  | 0, c => .ok c
  | left + 1, c =>
      if c.bytes > 3 ∧ c.offset &&& 3 = 0 then do
        let c ← tcMatch 32 c
        tcMatchWords left c
      else .ok c

def tcMatchAll (c : Comparison) : Except Error Comparison := do
  let c ← tcMatchWords c.bytes c
  let c ← tcMatch 16 c
  let c ← tcMatchWords c.bytes c
  let c ← tcMatch 16 c
  let c ← tcMatch 8 c
  let c ← tcMatchWords c.bytes c
  let c ← tcMatch 16 c
  let c ← tcMatchWords c.bytes c
  tcMatch 8 c

/-- The access under `&` operators, with all their masks; `none` if there was
none. -/
def varMask (mask : Option U128) : Data → Except Error (Data × Option U128)
  | .op .and _ a b _ => do
      let old := mask.getD (U128.ofBitVec32 0).not
      if (a.type = .unum ∨ a.type = .ipv6) ∧ a.isOp = false then
        let n ← a.toIpv6
        varMask (old.and n) b
      else if (b.type ≠ .unum ∧ b.type ≠ .ipv6) ∨ b.isOp = true then
        .error (.dumpFailed "non-constant and")
      else
        let n ← b.toIpv6
        varMask (old.and n) a
  | d => .ok (d, mask)

def dumpEq (constant var : Data) (keys : List Key) :
    Except Error (Bool × List Key) :=
  if constant.isOp = true ∨ (constant.type ≠ .unum ∧ constant.type ≠ .ipv6) then
    .error (.dumpFailed "constant side isn't")
  else if var.isOp = false then .error (.dumpFailed "variable side isn't")
  else do
    let (var, mask) ← varMask none var
    match var with
    | .op .access _ _ offset bits =>
        if offset.isOp = true ∨ offset.type ≠ .unum then
          .error (.dumpFailed "bad offset")
        else do
          let value ← constant.toIpv6
          let skip := 128 - bits.unumValue
          let mask := mask.getD ((U128.ofBitVec32 0).not.shiftRight skip)
          if !(value.and mask.not).isZero then .ok (false, keys)
          else do
            let c ← tcMatchAll ⟨value.shiftLeft skip, mask.shiftLeft skip,
              offset.unumValue, bits.unumValue.toNat / 8, keys, true⟩
            if c.bytes ≠ 0 then
              .error (.error ("internal error: " ++ toString c.bytes ++
                " bytes left"))
            else .ok (c.useful, c.keys)
    | _ => .error (.dumpFailed "access expected")

end Tcng.IfU32
