import Mathlib.Algebra.Order.Ring.Int
import Tcng.Lib.Strtol

/-! `sprintf_generic.c`. A `long` has `w` bits; `fixed` is the text of a number
for `%f`, by the precision, before it is padded. -/

namespace Tcng.Sprintf

open Scan

/-- `struct sprintf_ops`, where the arguments form a list. A conversion that
fails gives its message. -/
structure Ops (α φ : Type) where
  getSint : α → Except String (BitVec 32)
  getUint : α → Except String (BitVec 32)
  getFloat : α → Except String φ
  getString : α → Except String (List Char)

inductive Error where
  | error (message : String)
  | assertion (condition : String)
  | undefined
  | abort
  | outOfFuel
  deriving DecidableEq, Repr

/-- The characters of the switch statements. -/
inductive Conversion where
  | c | s | d | u | o | x | upperX | f | percent
  deriving DecidableEq, Repr

def Conversion.ofChar : Char → Option Conversion
  | 'c' => some .c
  | 's' => some .s
  | 'd' => some .d
  | 'u' => some .u
  | 'o' => some .o
  | 'x' => some .x
  | 'X' => some .upperX
  | 'f' => some .f
  | '%' => some .percent
  | _ => none

def conversion (s : List Char) : Option Conversion :=
  s.head?.bind Conversion.ofChar

/-- A number that is stored in an `int`. -/
def asInt (n : Int) : Int := (BitVec.ofInt 32 n).toInt

def intMin : Int := -2 ^ 31

def intMax : Int := 2 ^ 31 - 1

/-- Arithmetic on `int` must not overflow. -/
def checkInt (n : Int) : Except Error Int :=
  if intMin ≤ n ∧ n ≤ intMax then .ok n else .error .undefined

/-- The loop of `log_8`, `log_10` and `log_16`. -/
def countDigits (base : Nat) : Nat → Nat → Nat
  | 0, _ => 0
  | fuel + 1, value =>
      if value = 0 then 0 else countDigits base fuel (value / base) + 1

def log (base value : Nat) : Nat :=
  if value = 0 then 1 else countDigits base value value

/-- What `printf` makes of a text for a field width, which is on the left if it
is negative. -/
def padded (zero : Bool) (width : Int) (text : List Char) : List Char :=
  let count := width.natAbs - text.length
  if width < 0 then text ++ List.replicate count ' '
  else if zero then
    if isMinus text then '-' :: (List.replicate count '0' ++ text.tail)
    else List.replicate count '0' ++ text
  else List.replicate count ' ' ++ text

/-- A negative precision is taken as if it were omitted. -/
def givenPrecision (len : Int) : Option Nat :=
  if len < 0 then none else some len.toNat

def cut (len : Int) (text : List Char) : List Char :=
  ((givenPrecision len).map text.take).getD text

/-- `%ld` -/
def signedText (n : Int) : List Char :=
  if n < 0 then '-' :: Nat.toDigits 10 n.natAbs else Nat.toDigits 10 n.natAbs

variable {α φ σ : Type}

section

variable {β : Type}

def current (get : α → Except String β) : List α → Except Error β
  | [] => .error (.error "not enough arguments for format string")
  | arg :: _ => (get arg).mapError .error

def nextArg : List α → Except Error (List α)
  | [] => .error (.assertion "d->curr")
  | _ :: args => .ok args

end

/-- The loop over the format, with what `directive` does after a percent sign. -/
def overFormat (plain : Char → σ → Except Error σ)
    (directive : List Char → List α → σ → Except Error (σ × List Char × List α)) :
    Nat → List Char → List α → σ → Except Error (σ × List α)
  | 0, _, _, _ => .error .outOfFuel
  | _ + 1, [], args, t => .ok (t, args)
  | fuel + 1, c :: s, args, t => do
      if c ≠ '%' then
        let t ← plain c t
        overFormat plain directive fuel s args t
      else
        let (t, s, args) ← directive s args t
        overFormat plain directive fuel s args t

variable (w : Nat) (ops : Ops α φ) (fixed : Option Nat → φ → List Char)

/-! ## The first pass -/

def firstWidth (s : List Char) : Int × List Char :=
  if isMinus s || startsWithDigit s then
    let (min, rest) := strtoul w (if isMinus s then s.tail else s)
    (asInt min, rest)
  else (0, s)

def firstStar (min : Int) (s : List Char) (args : List α) :
    Except Error (Int × List Char × List α) := do
  if s.head? = some '*' then
    let min ← current ops.getSint args
    let args ← nextArg args
    let min ← if min.toInt < 0 then checkInt (-min.toInt) else pure min.toInt
    pure (min, s.tail, args)
  else pure (min, s, args)

/-- The precision, where both passes differ only in what they do if there is
none. -/
def precision (missing : Error) (s : List Char) (args : List α) :
    Except Error (Int × List Char × List α) := do
  if startsWithDigit s then
    let (len, rest) := strtoul w s
    pure (asInt len, rest, args)
  else if s.head? ≠ some '*' then throw missing
  else
    let len ← current ops.getUint args
    let args ← nextArg args
    pure (len.toInt, s.tail, args)

def reserve (len min : Int) : Int := if len < min then min else len

/-- `char dummy[100]` -/
def dummyLength (text : List Char) : Except Error Int :=
  if text.length < 100 then .ok text.length else .error .undefined

def firstPrecise (min len : Int) (s : List Char) (args : List α) :
    Except Error (Int × List α) := do
  match conversion s with
  | some .s =>
      let string ← current ops.getString args
      let args ← nextArg args
      let realLen := asInt string.length
      let len := if realLen < len then realLen else len
      pure (reserve len min, args)
  | some .f =>
      let x ← current ops.getFloat args
      let len ← dummyLength (padded false min (fixed (givenPrecision len) x))
      let args ← nextArg args
      pure (reserve len len, args)
  | _ => throw (.error "precision (%.) only allowed for %s or %f")

def firstSimple (min : Int) (s : List Char) (args : List α) :
    Except Error (Int × List α) := do
  match conversion s with
  | some .c =>
      let args ← nextArg args
      pure (reserve 1 min, args)
  | some .s =>
      let string ← current ops.getString args
      let args ← nextArg args
      pure (reserve (asInt string.length) min, args)
  | some .d =>
      let tmp ← current ops.getSint args
      let args ← nextArg args
      if tmp.toInt < 0 then
        let tmp ← checkInt (-tmp.toInt)
        pure (reserve (1 + log 10 tmp.toNat) min, args)
      else pure (reserve (log 10 tmp.toInt.toNat) min, args)
  | some .u =>
      let n ← current ops.getUint args
      let args ← nextArg args
      pure (reserve (log 10 n.toNat) min, args)
  | some .o =>
      let n ← current ops.getUint args
      let args ← nextArg args
      pure (reserve (log 8 n.toNat) min, args)
  | some .x | some .upperX =>
      let n ← current ops.getUint args
      let args ← nextArg args
      pure (reserve (log 16 n.toNat) min, args)
  | some .f =>
      let x ← current ops.getFloat args
      let len ← dummyLength (padded false min (fixed none x))
      let args ← nextArg args
      pure (reserve len len, args)
  | some .percent => pure (reserve 1 1, args)
  | none =>
      throw (.error ("unrecognized format character \"" ++
        (s.head?.getD '\x00').toString ++ "\""))

/-- What is reserved for a conversion, and what follows it. -/
def firstDirective (s : List Char) (args : List α) :
    Except Error (Int × List Char × List α) := do
  let (min, s) := firstWidth w s
  let (min, s, args) ← firstStar ops min s args
  if s.head? = some '.' then
    let (len, s, args) ←
      precision w ops (.error "invalid precision") s.tail args
    let (n, args) ← firstPrecise ops fixed min len s args
    pure (n, s.tail, args)
  else
    let (n, args) ← firstSimple ops fixed min s args
    pure (n, s.tail, args)

def firstLoop : Nat → List Char → List α → Int → Except Error (Int × List α) :=
  overFormat (fun _ total => checkInt (total + 1)) fun s args total => do
    let (n, s, args) ← firstDirective w ops fixed s args
    let total ← checkInt (total + n)
    pure (total, s, args)

/-- The length of the result, and the arguments that are left over. -/
def firstPass (fmt : List Char) (args : List α) : Except Error (Int × List α) :=
  firstLoop w ops fixed (fmt.length + 1) fmt args 0

/-! ## The second pass -/

def secondWidth (s : List Char) : Int × Bool × List Char :=
  if isMinus s || startsWithDigit s then
    let zero := s.head? = some '0' || isMinus s && s.tail.head? = some '0'
    let (min, rest) := strtol w s
    (asInt min, zero, rest)
  else (0, false, s)

def secondStar (min : Int) (s : List Char) (args : List α) :
    Except Error (Int × List Char × List α) := do
  if s.head? = some '*' then
    let min ← current ops.getSint args
    let args ← nextArg args
    pure (min.toInt, s.tail, args)
  else pure (min, s, args)

def secondPrecise (zero : Bool) (min len : Int) (s : List Char) (args : List α) :
    Except Error (List Char × List α) := do
  if conversion s = some .s then
    let string ← current ops.getString args
    let args ← nextArg args
    pure (padded false min (cut len string), args)
  else
    let x ← current ops.getFloat args
    let args ← nextArg args
    if conversion s = some .f then
      pure (padded zero min (fixed (givenPrecision len) x), args)
    else throw .undefined

/-- The zero flag has no effect on text. -/
def secondSimple (zero : Bool) (min : Int) (s : List Char) (args : List α) :
    Except Error (List Char × List α) := do
  match conversion s with
  | some .c =>
      let n ← current ops.getSint args
      let args ← nextArg args
      pure (padded false min [Char.ofNat (n.toNat % 256)], args)
  | some .s =>
      let string ← current ops.getString args
      let args ← nextArg args
      pure (padded false min string, args)
  | some .d =>
      let n ← current ops.getSint args
      let args ← nextArg args
      pure (padded zero min (signedText n.toInt), args)
  | some .u =>
      let n ← current ops.getUint args
      let args ← nextArg args
      pure (padded zero min (Nat.toDigits 10 n.toNat), args)
  | some .o =>
      let n ← current ops.getUint args
      let args ← nextArg args
      pure (padded zero min (Nat.toDigits 8 n.toNat), args)
  | some .x =>
      let n ← current ops.getUint args
      let args ← nextArg args
      pure (padded zero min (Nat.toDigits 16 n.toNat), args)
  | some .upperX =>
      let n ← current ops.getUint args
      let args ← nextArg args
      pure (padded zero min ((Nat.toDigits 16 n.toNat).map Char.toUpper), args)
  | some .f =>
      let x ← current ops.getFloat args
      let args ← nextArg args
      pure (padded zero min (fixed none x), args)
  | some .percent => pure (['%'], args)
  | none => throw .abort

/-- What is written for a conversion, and what follows it. -/
def secondDirective (s : List Char) (args : List α) :
    Except Error (List Char × List Char × List α) := do
  let (min, zero, s) := secondWidth w s
  let (min, s, args) ← secondStar ops min s args
  if s.head? = some '.' then
    let (len, s, args) ← precision w ops (.assertion "*s == '*'") s.tail args
    let (text, args) ← secondPrecise ops fixed zero min len s args
    pure (text, s.tail, args)
  else
    let (text, args) ← secondSimple ops fixed zero min s args
    pure (text, s.tail, args)

def secondLoop :
    Nat → List Char → List α → List Char → Except Error (List Char × List α) :=
  overFormat (fun c t => .ok (t ++ [c])) fun s args t => do
    let (text, s, args) ← secondDirective w ops fixed s args
    pure (t ++ text, s, args)

def secondPass (fmt : List Char) (args : List α) :
    Except Error (List Char × List α) :=
  secondLoop w ops fixed (fmt.length + 1) fmt args []

/-- Arguments that are left over are ignored with a warning. -/
def sprintfGeneric (fmt : List Char) (args : List α) :
    Except Error (List Char) := do
  let (total, _) ← firstPass w ops fixed fmt args
  let (text, _) ← secondPass w ops fixed fmt args
  if text.length = total then pure text
  else throw (.assertion "t-buf == total")

end Tcng.Sprintf
