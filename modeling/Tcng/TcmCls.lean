import Mathlib.Data.Fintype.Card
import Mathlib.Data.Vector.Basic
import Mathlib.Logic.Function.Basic
import Mathlib.Logic.Relation

/-!
`tcc/tcm_cls.c`: the buckets of a classifier that is C code. An `unsigned long`
has `32 + k` bits.
-/

namespace Tcng.TcmCls

/-- A `struct timeval`, as `do_gettimeofday` sets it. -/
structure Timeval (k : Nat) where
  tvSec : BitVec (32 + k)
  tvUsec : BitVec (32 + k)
  normal : tvUsec.toNat < 1000000

def Timeval.zero (k : Nat) : Timeval k where
  tvSec := 0
  tvUsec := 0
  normal := by simp

def timeSteps : Nat := 256

/-- `overflow` is an index of the array instead of a pointer into it. -/
structure Bucket (k n : Nat) where
  tokens : BitVec 32
  mpu : BitVec 32
  depth : BitVec 32
  lastRefill : Timeval k
  carry : BitVec 32
  maxTime : BitVec 32
  scale : Nat
  t2b : Vector (BitVec 32) timeSteps
  overflow : Option (Fin n)

abbrev Buckets (k n : Nat) := Fin n → Bucket k n

/-! `add_bucket` of `if_c.c` prints a bucket, and `INIT_BUCKET` makes it. -/

/-- The smallest number of bits that makes the longest time an index. -/
def scaleLoop (maxTime : BitVec 32) : Nat → Nat → Nat
  | 0, scale => scale
  | fuel + 1, scale =>
      if maxTime >>> scale > 255 then scaleLoop maxTime fuel (scale + 1)
      else scale

/-- The arguments of `INIT_BUCKET` that come from the parameters of a policer;
`max_time` and the entries of the table are computed with `double`. -/
structure Printed (n : Nat) where
  mpu : BitVec 32
  burst : BitVec 32
  maxTime : BitVec 32
  t2b : Vector (BitVec 32) timeSteps
  overflow : Option (Fin n)

def initBucket {n : Nat} (k : Nat) (p : Printed n) : Bucket k n where
  tokens := p.burst
  mpu := p.mpu
  depth := p.burst
  lastRefill := .zero k
  carry := 0
  maxTime := p.maxTime
  scale := scaleLoop p.maxTime 32 0
  t2b := p.t2b
  overflow := p.overflow

/-! ## Refills

The unsigned subtractions are parameters: they wrap around in the code, and to
see that none does they can be made to fail instead. The one of the
microseconds may wrap around, which the code corrects. -/

abbrev Subtraction := (w : Nat) → BitVec w → BitVec w → Option (BitVec w)

def wrapping : Subtraction := fun _ a b => some (a - b)

def checked : Subtraction := fun _ a b =>
  if b ≤ a then some (a - b) else none

section

variable {k n : Nat} (sub : Subtraction)

def timeDifference (b : Bucket k n) (now : Timeval k) :
    Option (BitVec 32 × BitVec 32) := do
  let seconds ← sub _ now.tvSec b.lastRefill.tvSec
  let deltaS := seconds.setWidth 32
  let deltaUs := (now.tvUsec - b.lastRefill.tvUsec +
    b.carry.signExtend (32 + k)).setWidth 32
  if deltaUs &&& 0x80000000#32 ≠ 0#32 then
    let deltaS ← sub _ deltaS 1#32
    some (deltaS, deltaUs + 1000000#32)
  else some (deltaS, deltaUs)

/-- The elapsed time, as far as it is converted to tokens. -/
def refillTime (b : Bucket k n) (deltaS deltaUs : BitVec 32) :
    Option (BitVec 32) := do
  let deltaUs ←
    if deltaS < 4#32 then some (deltaUs + 1000000#32 * deltaS)
    else if deltaS > 4#32 ∨ b.maxTime < 4000000#32 then some b.maxTime
    else (sub _ b.maxTime 4000000#32).map fun late =>
      if deltaUs > late then b.maxTime else deltaUs + 1000000#32 * deltaS
  if deltaUs > b.maxTime then some b.maxTime else some deltaUs

def setTokens (i : Fin n) (tokens : BitVec 32) (buckets : Buckets k n) :
    Buckets k n :=
  Function.update buckets i { buckets i with tokens := tokens }

/-- The loop over a bucket and the ones that it overflows to. -/
def spill : Nat → Option (Fin n) → BitVec 32 → Buckets k n →
    Option (Buckets k n)
  | _, none, _, buckets => some buckets
  | 0, some _, _, _ => none
  | fuel + 1, some add, tokens, buckets => do
      let free ← sub _ (buckets add).depth (buckets add).tokens
      if tokens ≤ free then
        some (setTokens add ((buckets add).tokens + tokens) buckets)
      else
        let tokens ← sub _ tokens free
        spill fuel (buckets add).overflow tokens
          (setTokens add (buckets add).depth buckets)

/-- What is looked up for a refill, and where. -/
def lookup (i : Fin n) (now : Timeval k) (buckets : Buckets k n) :
    Option (BitVec 32 × Nat) := do
  let (deltaS, deltaUs) ← timeDifference sub (buckets i) now
  let deltaUs ← refillTime sub (buckets i) deltaS deltaUs
  some (deltaUs, (deltaUs >>> (buckets i).scale).toNat)

/-- No chain is longer than the array. -/
def refillBucket (i : Fin n) (now : Timeval k) (buckets : Buckets k n) :
    Option (Buckets k n) := do
  let b := buckets i
  let (deltaUs, index) ← lookup sub i now buckets
  let tokens ← b.t2b[index]?
  spill sub n (some i) tokens (Function.update buckets i { b with
    carry := deltaUs &&& ((1#32 <<< b.scale) - 1#32), lastRefill := now })

def policedLen (len : BitVec 32) (b : Bucket k n) : BitVec 32 :=
  if len < b.mpu then b.mpu else len

def policeConform (len : BitVec 32) (i : Fin n) (now : Timeval k)
    (buckets : Buckets k n) : Option (Bool × Buckets k n) := do
  let refilled ← refillBucket sub i now buckets
  some (policedLen len (buckets i) ≤ (refilled i).tokens, refilled)

def policeCount (len : BitVec 32) (i : Fin n) (now : Timeval k)
    (buckets : Buckets k n) : Option (Buckets k n) := do
  let refilled ← refillBucket sub i now buckets
  let policedLen := policedLen len (buckets i)
  if (refilled i).tokens < policedLen then some (setTokens i 0#32 refilled)
  else
    let tokens ← sub _ (refilled i).tokens policedLen
    some (setTokens i tokens refilled)

end

/-! ## Runs -/

/-- A call of `police_conform` or of `police_count` for a packet, and the time
when it is made. -/
structure PoliceCall (k n : Nat) where
  count : Bool
  len : BitVec 32
  bucket : Fin n
  now : Timeval k

variable {k n : Nat}

def police (sub : Subtraction) (call : PoliceCall k n)
    (buckets : Buckets k n) : Option (Buckets k n) :=
  if call.count then
    policeCount sub call.len call.bucket call.now buckets
  else
    (policeConform sub call.len call.bucket call.now buckets).map Prod.snd

def run (sub : Subtraction) :
    List (PoliceCall k n) → Buckets k n → Option (Buckets k n)
  | [], buckets => some buckets
  | call :: rest, buckets => (police sub call buckets).bind (run sub rest)

end Tcng.TcmCls
