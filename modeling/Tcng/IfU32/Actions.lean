import Tcng.IfExt.Rules
import Tcng.IfU32.Output

/-! Actions of `u32` rules: meters are recognized by their shape. -/

namespace Tcng.IfU32

open Program

/-- The shape of an action and how it is expressed: `n`, `N` a conform test,
`t`, `T` a count, `d` drop, `c` a class, `u` unspec, `*` the end of the
classifier; `p`, `P` a policer, `D` the drop policer. -/
def map : List (String × String) :=
  [ -- no meter
    ("c0", "c0"),
    ("d", "Ddd"),
    ("u", ""), -- discard rule
    -- SLB
    ("N0T0c1u*", "p0c1u"),
    ("N0T0c1d", "p0c1d"),
    ("N0T0du*", "p0du"),
    ("N0T0dd", "p0dd"),
    ("N0T0dc1", "p0dc1"),
    ("N0T0c1c2", "p0c1u c2"),
    -- DLB
    ("n0n1t0t1c2uu*", "P01c2u"),
    ("n0n1t0t1c2dd", "P01c2d"),
    ("n0n1t0t1duu*", "P01du"),
    ("n0n1t0t1dc2c2", "P01dc2"),
    ("n0n1t0t1c2c3c3", "P01c2u c3"),
    -- DLB with reversed counting
    ("n0n1t1t0c2uu*", "P01c2u"),
    ("n0n1t1t0c2dd", "P01c2d"),
    ("n0n1t1t0duu*", "P01du"),
    ("n0n1t1t0dc2c2", "P01dc2"),
    ("n0n1t1t0c2c3c3", "P01c2u c3"),
    -- srTCM, 3 classes
    ("n0>1t0c2n1t1c3c4", "p0+1uc4 p'0c2u c3"),
    -- srTCM, 2 classes, drop in "red"
    ("n0>1t0c2n1t1c3d", "p0+1ud p'0c2u c3"),
    -- trTCM, 3 classes
    ("n0n1t0t1c2c3n1t1c4c3", "p1uc3 p0c2u c4"),
    ("n0n1t1t0c2t0c3c4", "p0uc4 p1c2u c3"),
    -- trTCM, 2 classes, drop on "red"
    ("n0n1t0t1c2dn1t1c3d", "p1ud p0c2u c3"),
    ("n0n1t1t0c2t0c3d", "p0ud p1c2u c3") ]

abbrev MapMem := Nat → Option MapValue

/-- The index at the beginning of `pos`, and what follows it. -/
def mapIndex (pos : List Char) : Except Error (Nat × List Char) :=
  match pos with
  | c :: pos =>
      if '0' ≤ c ∧ c ≤ '9' then .ok (c.toNat - '0'.toNat, pos)
      else .error (.assertion "n < 10")
  | [] => .error (.assertion "n < 10")

/-- `none` if the entry has another value. -/
def storeValue (val : MapValue) (pos : List Char) (mem : MapMem) :
    Except Error (Option (List Char × MapMem)) := do
  let (n, pos) ← mapIndex pos
  match mem n with
  | some old =>
      if old ≠ val then .ok none
      else .ok (some (pos, Function.update mem n (some val)))
  | none => .ok (some (pos, Function.update mem n (some val)))

section

-- what a bucket has parameters for
variable (peakrate : Bucket → Bool) (overflow : Bucket → Option Bucket)

/-- `none` if the action does not have the shape, and otherwise what is left
of it. -/
def walkTree (actions : ActionDb) :
    Nat → Option Nat → List Char → MapMem →
      Except Error (Option (List Char × MapMem))
  | 0, _, _, _ => .error .outOfFuel
  | fuel + 1, act, pos, mem =>
      match act.bind (actions.nodes[·]?), pos with
      | some act, c :: pos =>
          if c = 'n' ∨ c = 'N' then
            match act.type with
            | .atConform p =>
                if c = 'n' ∧ peakrate p then .ok none
                else do
                  match ← storeValue (.police p) pos mem with
                  | none => .ok none
                  | some (pos, mem) =>
                      let after ←
                        match overflow p, pos with
                        | some q, '>' :: pos => storeValue (.police q) pos mem
                        | some _, _ => .ok none
                        | none, '>' :: _ => .ok none
                        | none, pos => .ok (some (pos, mem))
                      match after with
                      | none => .ok none
                      | some (pos, mem) => do
                          match ← walkTree actions fuel act.c1 pos mem with
                          | none => .ok none
                          | some (pos, mem) =>
                              walkTree actions fuel act.c0 pos mem
            | _ => .ok none
          else if c = 't' ∨ c = 'T' then
            match act.type with
            | .atCount p =>
                if c = 't' ∧ peakrate p then .ok none
                else do
                  match ← storeValue (.police p) pos mem with
                  | none => .ok none
                  | some (pos, mem) => walkTree actions fuel act.c1 pos mem
            | _ => .ok none
          else if c = 'd' then
            if act.type = .atDrop then .ok (some (pos, mem)) else .ok none
          else if c = 'c' then
            match act.type with
            | .atClass toClass => storeValue (.class toClass) pos mem
            | _ => .ok none
          else if c = 'u' then
            if act.type = .atUnspec then .ok (some (pos, mem)) else .ok none
          else .error (.assertion "abort")
      | _, _ => .error (.assertion "abort")

def mapActions (actions : ActionDb) (act : Nat) (atEnd : Bool) :
    List (String × String) → Except Error (Option (List Char × MapMem))
  | [] => .ok none
  | entry :: entries => do
      let pos := entry.1.toList
      match ← walkTree peakrate overflow actions pos.length (some act) pos
          fun _ => none with
      | some ([], mem) => .ok (some (entry.2.toList, mem))
      | some (['*'], mem) =>
          if atEnd then .ok (some (entry.2.toList, mem))
          else mapActions actions act atEnd entries
      | _ => mapActions actions act atEnd entries

end

/-! Policers. -/

/-- A policer for these buckets, unless one of them is used otherwise. -/
def findPolicer (tC : Bucket) (tP : Option Bucket) :
    List Police → Nat → Except Error (Option Nat)
  | [], _ => .ok none
  | pol :: policers, i =>
      if pol.tC = some tC ∧ pol.tP = tP then .ok (some i)
      else if pol.tC = some tC ∨ pol.tP = some tC then
        .error (.error "policer(s) already used in different configuration")
      else if tP.isSome ∧ (pol.tC = tP ∨ pol.tP = tP) then
        .error (.error "policer(s) already used in different configuration")
      else findPolicer tC tP policers (i + 1)

/-- The place of the policer in the list of all policers. -/
def makePolicer (tC : Bucket) (tP burst : Option Bucket) (clone : Bool) :
    Emit Nat := do
  let s ← get
  let found ← if clone then pure none else lift (findPolicer tC tP s.policers 0)
  match found with
  | some i => pure i
  | none => do
      let pol : Police :=
        if clone then ⟨none, none, burst, .pdInvalid, .pdInvalid⟩
        else ⟨some tC, tP, burst, .pdInvalid, .pdInvalid⟩
      modify fun s => { s with policers := pol :: s.policers }
      pure 0

def getValue (pos : List Char) : Emit (MapValue × List Char) := do
  let (n, pos) ← lift (mapIndex pos)
  let s ← get
  match s.mapMem n with
  | some val => pure (val, pos)
  | none => throw (.assertion "map_mem[n]")

def getBucket (pos : List Char) : Emit (Bucket × List Char) := do
  let (val, pos) ← getValue pos
  match val with
  | .police p => pure (p, pos)
  | .class _ => throw (.assertion "abort")

/-- The decision, the class it is for, and what follows. -/
def issueDecision (out : List Char) (dec : Profile) :
    Emit (Profile × Option Class × List Char) :=
  let issue (new : Profile) (out : List Char) (class' : Option Class) :
      Emit (Profile × Option Class × List Char) :=
    if dec ≠ .pdInvalid ∧ dec ≠ new then
      throw (.error "policer decision changed")
    else pure (new, class', out)
  match out with
  | 'c' :: out =>
      if dec ≠ .pdInvalid ∧ dec ≠ .pdOk then
        throw (.error "policer decision changed")
      else do
        let (val, out) ← getValue out
        match val with
        | .class toClass => issue .pdOk out (some toClass)
        | .police _ => throw (.assertion "abort")
  | 'd' :: out => issue .pdDrop out none
  | 'u' :: out => issue .pdContinue out none
  | _ => throw (.assertion "abort")

/-- `dump_match` or `dump_match_again` -/
def dumpMatchIf (again : Bool) : Emit Unit :=
  if again then dumpMatchAgain else dumpMatch

section

-- parameter `mpu` of a bucket, and `get_any_class`
variable (mpu : Bucket → Option Nat) (anyClass : Class)

/-- `issue_policer`; the policer with its decisions is the result. -/
def issuePolicer (police : Police) (out : List Char) (again : Bool) :
    Emit (Police × List Char) := do
  dumpMatchIf again
  let (inProfile, class1, out) ← issueDecision out police.inProfile
  let (outProfile, class2, out) ← issueDecision out police.outProfile
  if class1.isSome ∧ class2.isSome then throw (.assertion "!tmp")
  else do
    let police := { police with inProfile, outProfile }
    tcMore fun line =>
      { line with
        classid := some ((class1.or class2).getD anyClass)
        police := some police }
    pure (police, out)

/-- A policer of the list. -/
def issuePolicerAt (i : Nat) (out : List Char) (again : Bool) :
    Emit (List Char) := do
  let s ← get
  match s.policers[i]? with
  | none => throw (.assertion "abort")
  | some police => do
      let (police, out) ← issuePolicer anyClass police out again
      modify fun s => { s with policers := s.policers.set i police }
      pure out

def dropPolicer : Police := ⟨none, none, none, .pdDrop, .pdDrop⟩

/-- The bucket whose burst is added, after a `+`. -/
def getBurst (out : List Char) : Emit (Option Bucket × List Char) :=
  match out with
  | '+' :: out => do
      let (p, out) ← getBucket out
      pure (some p, out)
  | out => pure (none, out)

def getClone (out : List Char) : Bool × List Char :=
  match out with
  | '\'' :: out => (true, out)
  | out => (false, out)

/-- What is left of `out` after the first of its parts. -/
def issueActions (out : List Char) (again : Bool) : Emit (List Char) :=
  match out.dropWhile (· == ' ') with
  | [] => pure []
  | c :: out =>
      if c = 'p' then do
        let (clone, out) := getClone out
        let (p0, out) ← getBucket out
        let (burst, out) ← getBurst out
        let i ← makePolicer p0 none burst clone
        let out ← issuePolicerAt anyClass i out again
        tcNl
        pure out
      else if c = 'P' then do
        let (clone, out) := getClone out
        let (p0, out) ← getBucket out
        let (burst, out) ← getBurst out
        let (p1, out) ← getBucket out
        if (mpu p0).getD 0 ≠ (mpu p1).getD 0 then
          throw (.error "buckets have incompatible MPU parameters")
        else do
          let i ← makePolicer p0 (some p1) burst clone
          let out ← issuePolicerAt anyClass i out again
          tcNl
          pure out
      else if c = 'c' then do
        dumpMatchIf again
        let (val, out) ← getValue out
        match val with
        | .class toClass => do
            tcMore fun line => { line with classid := some toClass }
            tcNl
            pure out
        | .police _ => throw (.assertion "abort")
      else if c = 'D' then do
        let (_, out) ← issuePolicer anyClass dropPolicer out again
        tcNl
        pure out
      else if c = 'u' then pure out
      else throw (.assertion "abort")

/-- The loop over the rest of `out`; every round takes a character. -/
def issueAgain : Nat → List Char → Emit Unit
  | 0, _ => pure ()
  | left + 1, out =>
      if out = [] then pure ()
      else do
        modify fun s =>
          if s.isMeta = .yes then { s with prioOffset := s.prioOffset + 1 }
          else s
        let out ← issueActions mpu anyClass out true
        issueAgain left out

end

end Tcng.IfU32
