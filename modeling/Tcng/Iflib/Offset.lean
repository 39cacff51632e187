import Tcng.Semantics

/-! Explicit offset operators (`iflib_off.c`), for the external target. -/

namespace Tcng

/-! ## From accesses to offset operators -/

def useOffset : Data → Except Error Data
  | .op .access t a b c =>
      if a.type ≠ .fieldRoot then .error (.assertion "abort")
      else if b.type ≠ .unum then .error (.assertion "abort")
      else if b.isOp then do
        let b ← useOffset b
        .ok (.op .offset t (.op .access t a (.unum 0) c) b .none)
      else .ok (.op .access t a b c)
  | .op dsc t a b c => do
      let a ← useOffset a
      let b ← useOffset b
      let c ← useOffset c
      .ok (.op dsc t a b c)
  | d => .ok d

def haveOffset : Data → Bool
  | .op .access .. => false
  | .op .fieldRoot .. | .op .offset .. => true
  | .op _ _ a b c => haveOffset a || haveOffset b || haveOffset c
  | _ => false

/-! ## Field roots -/

def rootOf : Data → Option Nat
  | .op .fieldRoot _ _ b _ => some (b.rootOr 0)
  | _ => none

/-- The answer, and `*common_root` afterwards. -/
def haveCommonRoot (d : Data) (commonRoot : Option Nat) : Bool × Option Nat :=
  if !haveOffset d then (true, commonRoot)
  else
    match rootOf d, commonRoot with
    | none, _ => (false, commonRoot)
    | some root, some common => (root == common, commonRoot)
    | some root, none => (true, some root)

def pullRoot : Data → Data
  | .op .fieldRoot _ a _ _ => a
  | d => d

def fieldRootOf (a : Data) (root : Nat) : Data :=
  .op .fieldRoot a.type a (.fieldRoot root) .none

/-- An operator whose operands have been through `bubble_roots`. -/
def bubbleNode (limitBubbling : Bool) (dsc : OpDsc) (t : DataType)
    (a b c : Data) : Data :=
  let wrap (root : Nat) (b c : Data) : Data :=
    if limitBubbling && (dsc == .logicalAnd || dsc == .logicalOr) then
      .op dsc t a b c
    else fieldRootOf (.op dsc t (pullRoot a) b c) root
  match haveCommonRoot a none with
  | (false, _) => .op dsc t a b c
  | (true, commonRoot) =>
      match haveCommonRoot b commonRoot with
      | (false, none) => .op dsc t a b c
      | (false, some root) => wrap root b c
      | (true, commonRoot) =>
          match haveCommonRoot c commonRoot with
          | (false, _) | (true, none) => .op dsc t a b c
          | (true, some root) =>
              if limitBubbling then wrap root b c
              else wrap root (pullRoot b) (pullRoot c)

def bubbleRoots (limitBubbling : Bool) : Data → Data
  | .op dsc t a b c =>
      bubbleNode limitBubbling dsc t (bubbleRoots limitBubbling a)
        (bubbleRoots limitBubbling b) (bubbleRoots limitBubbling c)
  | .fieldRoot root => .op .fieldRoot .none .none (.fieldRoot root) .none
  | d => d

def trimRoots : Data → Nat → Data
  | .op .fieldRoot t a b c, root =>
      if b.rootOr root = root then trimRoots a root
      else
        .op .fieldRoot t (trimRoots a (b.rootOr root))
          (trimRoots b (b.rootOr root)) (trimRoots c (b.rootOr root))
  | .op dsc t a b c, root =>
      .op dsc t (trimRoots a root) (trimRoots b root) (trimRoots c root)
  | d, _ => d

/-! ## Constant offsets -/

/-- The constants of a sum and the rest of it. -/
def extractSum : Data → BitVec 32 × Data
  | .op .offset t a b c =>
      let (sum, a) := extractSum a
      (sum, .op .offset t a b c)
  | .op .plus t a b c =>
      let (suma, a) := extractSum a
      let (sumb, b) := extractSum b
      match a, b with
      | .unum m, .unum n => (suma + sumb + (m + n), .unum 0)
      | .unum m, b => (suma + sumb + m, b)
      | a, .unum n => (suma + sumb + n, a)
      | a, b => (suma + sumb, .op .plus t a b c)
  | d => (0, d)

theorem extractSum_size (d : Data) : (extractSum d).2.size ≤ d.size := by
  induction d with
  | op dsc t a b c iha ihb =>
      cases dsc
      case plus =>
        rw [extractSum]
        dsimp only
        split <;> simp_all only [Data.size] <;> omega
      case offset =>
        simp only [extractSum, Data.size]
        omega
      all_goals exact Nat.le_refl _
  | _ => exact Nat.le_refl _

/-- `d->op->b.u.unum += base` -/
def addBase (base : BitVec 32) : Data → Data
  | .unum n => .unum (n + base)
  | d => d

def constantUnum : Data → Option (BitVec 32)
  | .unum n => some n
  | _ => none

def doPushOffset : Data → BitVec 32 → Data
  | .op .offset t a b c, base =>
      let newBase := base + (extractSum b).1
      match constantUnum (extractSum b).2 with
      | some n => doPushOffset a (newBase + n)
      | none =>
          .op .offset t (doPushOffset a newBase)
            (doPushOffset (extractSum b).2 base) (doPushOffset c base)
  | .op .access t a b c, base => .op .access t a (addBase base b) c
  | .op dsc t a b c, base =>
      .op dsc t (doPushOffset a base) (doPushOffset b base)
        (doPushOffset c base)
  | d, _ => d
termination_by d => d.size
decreasing_by
  case _ => simp only [Data.size]; omega
  case _ => simp only [Data.size]; omega
  case _ =>
    have hrest := extractSum_size b
    simp only [Data.size]
    omega
  all_goals simp only [Data.size]; omega

def pushOffset (d : Data) : Data := doPushOffset d 0

/-- `iflib_offset(d,0)` -/
def iflibOffset (d : Data) : Except Error Data := do
  let d ← useOffset d
  .ok (pushOffset (trimRoots (bubbleRoots false d) 0))

end Tcng
