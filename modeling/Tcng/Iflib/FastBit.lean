import Mathlib.Logic.Function.Basic
import Tcng.Lib.Diagram

/-! Sorting of the diagram of single-bit decisions (`iflib_fastbit.c`). -/

namespace Tcng.FastBit

abbrev Number := BitVec 32

def tagMask : Number := 0xf0000000#32
def valueMask : Number := 0x0fffffff#32
def dropTag : Number := 0x80000000#32
def classTag : Number := 0x90000000#32
def reclassifyTag : Number := 0xa0000000#32
def continueTag : Number := 0xb0000000#32

/-- What ends the program before the diagram is complete. -/
inductive Stop
  | abort
  | assertion (condition : String)
  | nullPointer
  | shiftCount
  | dumpFailed (reason : String)
  | outOfFuel
  deriving DecidableEq, Repr

/-- `BIT`, without its reference count. -/
structure Bit where
  number : Number
  mark : Bool
  index : Int
  next : Bool → Option Nat

/-- All bits by their addresses; those from `size` on are free. -/
structure Bits where
  size : Nat
  bit : Nat → Bit

namespace Bits

def number (bits : Bits) (bit : Nat) : Number := (bits.bit bit).number

def mark (bits : Bits) (bit : Nat) : Bool := (bits.bit bit).mark

def index (bits : Bits) (bit : Nat) : Int := (bits.bit bit).index

def next (bits : Bits) (bit : Nat) : Bool → Option Nat := (bits.bit bit).next

/-- `bit->next[edge]`, which is then followed. -/
def follow (bits : Bits) (bit : Nat) (edge : Bool) : Except Stop Nat :=
  match bits.next bit edge with
  | none => .error .nullPointer
  | some next => .ok next

def store (bits : Bits) (bit : Nat) (content : Bit) : Bits :=
  { bits with bit := Function.update bits.bit bit content }

def alloc (bits : Bits) (content : Bit) : Bits :=
  ⟨bits.size + 1, Function.update bits.bit bits.size content⟩

def setNext (bits : Bits) (bit : Nat) (edge : Bool) (next : Option Nat) : Bits :=
  bits.store bit { bits.bit bit with
    next := Function.update (bits.next bit) edge next }

def setMark (bits : Bits) (bit : Nat) (mark : Bool) : Bits :=
  bits.store bit { bits.bit bit with mark }

def setIndex (bits : Bits) (bit : Nat) (index : Int) : Bits :=
  bits.store bit { bits.bit bit with index }

/-- The decision tree below a bit. -/
abbrev Unfolds (bits : Bits) : Nat → DecisionTree Number → Prop :=
  Diagram.Unfolds bits.number bits.next

end Bits

/-! Sorting. -/

/-- The loop that passes over bits with the number of `bit`. -/
def mergeEdge : Nat → Bits → Nat → Bool → Except Stop Bits
  | 0, _, _, _ => .error .outOfFuel
  | fuel + 1, bits, bit, edge => do
      let next ← bits.follow bit edge
      if bits.number bit = bits.number next then
        let bits := bits.setNext bit edge (bits.next next edge)
        if (bits.next bit edge).isNone then .ok bits
        else mergeEdge fuel bits bit edge
      else .ok bits

def samePartition (sorted a b : Number) : Bool := (a ^^^ b) &&& sorted == 0

/-- The loop over both edges, which `fix` is called for where it is needed. -/
def fixEdges (needed : Bits → Bool → Bool)
    (fix : Bits → Bool → Except Stop Bits) (bits : Bits) :
    Except Stop Bits := do
  let bits ← if needed bits false then fix bits false else .ok bits
  if needed bits true then fix bits true else .ok bits

/-- An edge of a clone that the swap may have broken. -/
def broken (sorted : Number) (bit clone : Nat) (bits : Bits) (j : Bool) :
    Bool :=
  match bits.next clone j with
  | none => false
  | some next =>
      samePartition sorted (bits.number bit) (bits.number clone) &&
        samePartition sorted (bits.number bit) (bits.number next)

/-- What becomes `next[i]` of a bit that is swapped with the one at `edge`. -/
def cloneBit (fix : Bits → Nat → Bool → Except Stop Bits) (sorted : Number)
    (bits : Bits) (bit : Nat) (edge i : Bool) : Except Stop (Bits × Nat) := do
  let next ← bits.follow bit edge
  if bits.next next i = bits.next bit (!edge) then do
    -- quick clone
    let clone ← bits.follow bit (!edge)
    let bits ← fixEdges (broken sorted bit clone)
      (fun bits j => fix bits clone j) bits
    .ok (bits, clone)
  else do
    let clone := bits.size
    let bits := bits.alloc { bits.bit bit with
      next := fun j =>
        if j = edge then bits.next next i else bits.next bit (!edge) }
    let bits ← fixEdges (broken sorted bit clone)
      (fun bits j => fix bits clone j) bits
    .ok (bits, clone)

/-- The part of `fix_edge` that swaps `bit` with the bit at `edge`. -/
def swapBits (fix : Bits → Nat → Bool → Except Stop Bits) (fuel : Nat)
    (sorted : Number) (bits : Bits) (bit : Nat) (edge : Bool) :
    Except Stop Bits := do
  let (bits, clone0) ← cloneBit fix sorted bits bit edge false
  let (bits, clone1) ← cloneBit fix sorted bits bit edge true
  let next ← bits.follow bit edge
  let bits := bits.store bit { bits.bit bit with
    number := bits.number next
    mark := bits.mark next
    next := fun j => some (if j then clone1 else clone0) }
  let bits ← mergeEdge fuel bits bit false
  if (bits.next bit false).isNone then .ok bits
  else mergeEdge fuel bits bit true

def fixEdge (border sorted : Number) :
    Nat → Bits → Nat → Bool → Except Stop Bits
  | 0, _, _, _ => .error .outOfFuel
  | fuel + 1, bits, bit, edge => do
      let bits ← mergeEdge fuel bits bit edge
      match bits.next bit edge with
      | none => .ok bits
      | some next =>
          -- the edge leads to a different partition
          if !samePartition sorted (bits.number bit) (bits.number next) then
            .ok bits
          -- we are in the lower part
          else if bits.number bit &&& border = 0 then .ok bits
          -- `next` is in the higher part
          else if bits.number next &&& border ≠ 0 then .ok bits
          else swapBits (fixEdge border sorted fuel) fuel sorted bits bit edge

def quickDag (currMark : Bool) (border sorted : Number) :
    Nat → Bits → Nat → Except Stop Bits
  | 0, _, _ => .error .outOfFuel
  | fuel + 1, bits, bit =>
      if bits.mark bit = currMark then .ok bits
      else do
        let bits := bits.setMark bit currMark
        let bits ← match bits.next bit false with
          | none => .ok bits
          | some next => quickDag currMark border sorted fuel bits next
        let bits ← match bits.next bit true with
          | none => .ok bits
          | some next => quickDag currMark border sorted fuel bits next
        fixEdges (fun bits edge => (bits.next bit edge).isSome)
          (fun bits edge => fixEdge border sorted fuel bits bit edge) bits

/-- Numbers that `dag_2d` does not give up on. -/
def printable (number : Number) : Bool :=
  let tag := number &&& tagMask
  tag == 0 || tag == dropTag || tag == classTag || tag == reclassifyTag ||
    tag == continueTag

/-- `dag_2d`, without what it prints. -/
def dag2d : Nat → Bits → Option Nat → Except Stop Unit
  | _, _, none => .ok ()
  | 0, _, some _ => .error .outOfFuel
  | fuel + 1, bits, some bit =>
      if printable (bits.number bit) then do
        dag2d fuel bits (bits.next bit true)
        dag2d fuel bits (bits.next bit false)
      else .error .abort

/-- The iterations for the bits below `i`. -/
def sortIterations (fuel : Nat) :
    Nat → Bool → Bits → Nat → Except Stop (Bits × Bool)
  | 0, currMark, bits, _ => .ok (bits, currMark)
  | i + 1, currMark, bits, dag => do
      dag2d fuel bits (some dag)
      let bits ←
        quickDag currMark (1#32 <<< i) (0xfffffffe#32 <<< i) fuel bits dag
      sortIterations fuel i (!currMark) bits dag

/-- `sort_dag`, which also returns `curr_mark`. -/
def sortDag (fuel : Nat) (currMark : Bool) (bits : Bits) (dag : Nat) :
    Except Stop (Bits × Bool) :=
  sortIterations fuel 32 currMark bits dag

/-! Verification. -/

def edgeInOrder (bits : Bits) (bit : Nat) (edge : Bool) : Bool :=
  match bits.next bit edge with
  | none => true
  | some next => decide (bits.number bit ≤ bits.number next)

/-- `do_verify_dag`, with `index`. -/
def doVerifyDag : Nat → Bits × Int → Option Nat → Except Stop (Bits × Int)
  | _, state, none => .ok state
  | 0, _, some _ => .error .outOfFuel
  | fuel + 1, (bits, index), some bit =>
      if bits.index bit ≠ -1 then .ok (bits, index)
      else if !edgeInOrder bits bit false then
        .error (.assertion
          "!bit->next[0] || bit->number <= bit->next[0]->number")
      else if !edgeInOrder bits bit true then
        .error (.assertion
          "!bit->next[1] || bit->number <= bit->next[1]->number")
      else do
        let state ← doVerifyDag fuel (bits, index) (bits.next bit false)
        let (bits, index) ← doVerifyDag fuel state (bits.next bit true)
        .ok (bits.setIndex bit index, index + 1)

end Tcng.FastBit
