import Tcng.Tree.ClassIds
import Tcng.Tree.SortClasses

/-! The check of a `gred` qdisc (`q_gred.c`). -/

namespace Tcng.Gred

def maxDPs : Nat := 16

/-- `__DEFAULT_PRM` -/
inductive DefaultPrm
  | avpkt
  | burst
  | limit
  | max
  | min
  deriving DecidableEq, Repr

def DefaultPrm.id : DefaultPrm → String
  | .avpkt => "avpkt"
  | .burst => "burst"
  | .limit => "limit"
  | .max => "max"
  | .min => "min"

def defaultPrms : List DefaultPrm := [.avpkt, .burst, .limit, .max, .min]

/-- What the check reads of a class besides its number. -/
structure Class where
  child : Bool
  filters : Bool
  qdisc : Bool
  prms : List DefaultPrm
  isDefault : Bool
  prio : Option (BitVec 32)

structure Qdisc where
  classes : List Nat
  links : Links Nat
  linked : links.Chain none classes
  info : Nat → Class
  prms : List DefaultPrm
  grio : Bool

/-- The numbers of the classes, and the variables of the check. -/
structure State where
  number : Nat → BitVec 32
  dp : BitVec 32
  gotDefault : Bool

def checkChildless (c : Class) : Program State Error Unit := do
  .refuse (c.child = true) (.error "gred does not have nested classes")
  .refuse (c.filters = true) (.error "gred classes don't have local filters")

/-- The number of a class; the number in `dp` comes next. -/
def assignDp (qdisc : Qdisc) (c : Nat) : Program State Error Unit := do
  let s ← .get
  if s.number c = undefU32 then do
    .refuse (∃ walk ∈ qdisc.classes, s.number walk = s.dp)
      (.error "can't auto-assign gred class IDs in this case")
    .modify fun s => { s with number := Function.update s.number c s.dp }
  else do
    .refuse (maxDPs ≤ (s.number c).toNat)
      (.error "gred class number must be in the range 0..15")
    .refuse (∃ walk ∈ qdisc.classes, walk ≠ c ∧ s.number walk = s.number c)
      (duplicateClassId (s.number c))
    .modify fun s => { s with dp := s.number c }
  .modify fun s => { s with dp := s.dp + 1 }

/-- `DEFAULT_CHECK`: each is set by the class or by the qdisc. -/
def checkDefaultPrms (qdisc : Qdisc) (c : Class) : Program State Error Unit :=
  match defaultPrms.find? fun p => decide (p ∉ c.prms ∧ p ∉ qdisc.prms) with
  | some p =>
      .throw (.error ("required parameter \"" ++ p.id ++ "\" is missing"))
  | none => pure ()

def checkDefault (c : Nat) (info : Class) : Program State Error Unit := do
  let s ← .get
  if info.isDefault then do
    .refuse (s.number c = 0) (.error "can't use DP 0 as default")
    .refuse (s.gotDefault = true)
      (.error "more than one class marked as \"default\"")
    .modify fun s => { s with gotDefault := true }
  else pure ()

def checkPrio (qdisc : Qdisc) (c : Class) : Program State Error Unit := do
  .refuse (qdisc.grio = true ∧ c.prio = none)
    (.error "\"prio\" is required when using grio")
  .refuse (qdisc.grio = false ∧ c.prio ≠ none)
    (.error "\"prio\" is not allowed if not using grio")

def checkClass (qdisc : Qdisc) (c : Nat) : Program State Error Unit := do
  checkChildless (qdisc.info c)
  .refuse ((qdisc.info c).qdisc = true) (.error "gred has no inner qdiscs")
  assignDp qdisc c
  checkDefaultPrms qdisc (qdisc.info c)
  checkDefault c (qdisc.info c)
  checkPrio qdisc (qdisc.info c)

/-- `prio` against the number of DPs, once that is known. -/
def checkPrioRange (c : Class) : Program State Error Unit := do
  let s ← .get
  match c.prio with
  | some v =>
      .refuse (v = 0 ∨ s.dp < v)
        (.error ("\"prio\" (" ++ toString v.toInt ++
          ") larger than number of DPs (" ++ toString s.dp.toInt ++ ")"))
  | none => pure ()

def gredCheck (qdisc : Qdisc) (fuel : Nat) : Program State Error (Links Nat) := do
  .modify fun s => { s with dp := 0, gotDefault := false }
  .forEach (checkClass qdisc) qdisc.classes
  .forEach (fun c => checkPrioRange (qdisc.info c)) qdisc.classes
  let s ← .get
  let links ← .lift (sortClasses s.number fuel qdisc.links)
  .refuse (s.gotDefault = false)
    (.error "gred requires one class to be marked as \"default\"")
  pure links

/-! ## The numbers -/

/-- The number that would follow some classes. -/
def dpAfter (given : Nat → BitVec 32) (before : List Nat) : Nat :=
  before.foldl
    (fun dp c => if given c = undefU32 then dp + 1 else (given c).toNat + 1) 0

/-- What a class without a number is to get. -/
def autoNumber (given : Nat → BitVec 32) (classes : List Nat) (c : Nat) : Nat :=
  dpAfter given (classes.takeWhile (· ≠ c))

/-- No two classes have the same number, and the kernel has a DP for each. -/
structure Numbered (classes : List Nat) (number : Nat → BitVec 32) : Prop where
  distinct : classes.Pairwise fun a b => number a ≠ number b
  range : ∀ c ∈ classes, (number c).toNat < maxDPs

/-- Only a given number is held against the range. -/
structure Checked (given : Nat → BitVec 32) (classes : List Nat) (c : Nat)
    (n : BitVec 32) : Prop where
  range : given c ≠ undefU32 → n.toNat < maxDPs
  follows : given c = undefU32 → n.toNat = autoNumber given classes c

/-- Where the check stands between two classes. -/
structure Progress (classes : List Nat) (given : Nat → BitVec 32)
    (before rest : List Nat) (s : State) : Prop where
  numbers : ClassProgress (Checked given classes) classes given before rest
    s.number
  dp : s.dp.toNat = dpAfter given before

section

variable {qdisc : Qdisc} {given : Nat → BitVec 32} {before rest : List Nat}
  {c : Nat} {s : State}

@[simp] theorem dpAfter_nil : dpAfter given [] = 0 := rfl

theorem dpAfter_append (given : Nat → BitVec 32) (before : List Nat) (c : Nat) :
    dpAfter given (before ++ [c]) =
      if given c = undefU32 then dpAfter given before + 1
      else (given c).toNat + 1 := by
  simp [dpAfter, List.foldl_append]

/-- A class gets the number that follows those in front of it. -/
theorem autoNumber_eq {classes : List Nat} (hnodup : classes.Nodup)
    (hclasses : classes = before ++ c :: rest) :
    autoNumber given classes c = dpAfter given before := by
  have hbefore : classes.takeWhile (· ≠ c) = before := by
    rw [hclasses, List.takeWhile_append_of_pos]
    · simp
    · intro a ha
      rw [hclasses, List.nodup_append] at hnodup
      simpa using hnodup.2.2 a ha c (by simp)
  rw [autoNumber, hbefore]

theorem assignDp_progress
    (h : Progress qdisc.classes given before (c :: rest) s)
    (hclasses : qdisc.classes = before ++ c :: rest) :
    Program.wp (assignDp qdisc c)
      (fun _ s' => Progress qdisc.classes given (before ++ [c]) rest s')
      (fun _ _ => True) s := by
  have hnodup := qdisc.linked.nodup
  have hc : c ∈ qdisc.classes := by simp [hclasses]
  have hnumber := h.numbers.waiting c (by simp)
  simp only [assignDp, Program.wp_bind, Program.wp_get]
  rw [Program.wp_ite]
  simp only [Program.wp_bind, Program.wp_refuse, Program.wp_modify, implies_true,
    true_and, not_exists, not_and]
  constructor
  · intro hundef hunused
    rw [hnumber] at hundef
    have hlast := hunused c hc
    constructor
    case numbers =>
      refine h.numbers.take hnodup hclasses hundef ?_ hunused
      constructor
      · exact fun hgiven => absurd hundef hgiven
      · intro _
        rw [autoNumber_eq hnodup hclasses, h.dp]
    case dp =>
      rw [dpAfter_append, if_pos hundef, ← h.dp]
      have hmax : undefU32.toNat = 2 ^ 32 - 1 := rfl
      rw [hnumber, hundef] at hlast
      bv_omega
  · intro hgiven hrange halone
    rw [hnumber] at hgiven
    rw [not_le] at hrange
    constructor
    case numbers =>
      refine h.numbers.keep ?_ halone
      exact ⟨fun _ => hrange, fun hundef => absurd hundef hgiven⟩
    case dp =>
      simp only [maxDPs] at hrange
      rw [dpAfter_append, if_neg hgiven, ← hnumber]
      bv_omega

/-- The other checks leave the numbers alone. -/
theorem checkClass_progress
    (h : Progress qdisc.classes given before (c :: rest) s)
    (hclasses : qdisc.classes = before ++ c :: rest) :
    Program.wp (checkClass qdisc c)
      (fun _ s' => Progress qdisc.classes given (before ++ [c]) rest s')
      (fun _ _ => True) s := by
  simp only [checkClass, checkChildless, Program.wp_bind, Program.wp_refuse,
    implies_true, true_and]
  intro _ _ _
  apply Program.wp_mono (assignDp_progress h hclasses) _ (fun _ _ _ => trivial)
  intro _ s' hs'
  rw [checkDefaultPrms]
  split
  · exact trivial
  · simp only [checkDefault, checkPrio, Program.wp_bind, Program.wp_pure,
      Program.wp_get, Program.wp_ite, Program.wp_refuse, Program.wp_modify,
      implies_true, true_and]
    exact ⟨fun _ _ _ _ _ => ⟨hs'.numbers, hs'.dp⟩, fun _ _ _ => hs'⟩

theorem checkClasses_progress
    (h : Progress qdisc.classes given before rest s)
    (hclasses : qdisc.classes = before ++ rest) :
    Program.wp (Program.forEach (checkClass qdisc) rest)
      (fun _ s' => Progress qdisc.classes given qdisc.classes [] s')
      (fun _ _ => True) s := by
  induction rest generalizing before s with
  | nil =>
      obtain rfl : qdisc.classes = before := by rw [hclasses, List.append_nil]
      exact h
  | cons c rest ih =>
      rw [Program.forEach, Program.wp_bind]
      apply Program.wp_mono (checkClass_progress h hclasses) _
        (fun _ _ _ => trivial)
      intro _ s' hs'
      apply ih hs'
      rw [hclasses, List.append_assoc]
      rfl

theorem checkPrioRanges_keep (classes : List Nat) {P : State → Prop}
    (hs : P s) :
    Program.wp (Program.forEach (fun c => checkPrioRange (qdisc.info c)) classes)
      (fun _ => P) (fun _ _ => True) s := by
  induction classes with
  | nil => exact hs
  | cons c classes ih =>
      rw [Program.forEach, Program.wp_bind, checkPrioRange, Program.wp_bind,
        Program.wp_get]
      split
      · rw [Program.wp_refuse]
        exact ⟨fun _ => trivial, fun _ => ih⟩
      · exact ih

theorem gredCheck_progress (qdisc : Qdisc) (fuel : Nat) (s : State) :
    Program.wp (gredCheck qdisc fuel)
      (fun _ s' => Progress qdisc.classes s.number qdisc.classes [] s')
      (fun _ _ => True) s := by
  have hstart : Progress qdisc.classes s.number [] qdisc.classes
      { s with dp := 0, gotDefault := false } := ⟨.start _ _ _ _, rfl⟩
  simp only [gredCheck, Program.wp_bind, Program.wp_modify]
  apply Program.wp_mono (checkClasses_progress hstart rfl) _
    (fun _ _ _ => trivial)
  intro _ s' hs'
  apply Program.wp_mono (checkPrioRanges_keep qdisc.classes hs') _
    (fun _ _ _ => trivial)
  intro _ s'' hs''
  simp only [Program.wp_get, Program.wp_lift, Program.wp_refuse,
    Program.wp_pure, implies_true, true_and, and_true]
  exact fun _ _ _ => hs''

/-- After the check no two classes have the same number, and the numbers are in
the range exactly if those that were not given are. -/
theorem Progress.numbered_iff
    (h : Progress qdisc.classes given qdisc.classes [] s) :
    Numbered qdisc.classes s.number ↔
      ∀ c ∈ qdisc.classes, given c = undefU32 →
        autoNumber given qdisc.classes c < maxDPs := by
  constructor
  · intro hnumbered c hc hundef
    rw [← ((h.numbers.settled c hc).1).follows hundef]
    exact hnumbered.range c hc
  · intro hauto
    refine ⟨h.numbers.pairwise qdisc.linked.nodup, ?_⟩
    intro c hc
    have hchecked := (h.numbers.settled c hc).1
    rcases eq_or_ne (given c) undefU32 with hundef | hgiven
    · rw [hchecked.follows hundef]
      exact hauto c hc hundef
    · exact hchecked.range hgiven

end

/-- The numbers of an accepted qdisc are distinct, and they are in the range
exactly if those that it was left to the check to find are. -/
theorem gredCheck_numbered_iff (qdisc : Qdisc) (fuel : Nat) (s s' : State)
    (links : Links Nat) (haccepted : gredCheck qdisc fuel s = (.ok links, s')) :
    (qdisc.classes.Pairwise fun a b => s'.number a ≠ s'.number b) ∧
      (Numbered qdisc.classes s'.number ↔
        ∀ c ∈ qdisc.classes, s.number c = undefU32 →
          autoNumber s.number qdisc.classes c < maxDPs) := by
  have hprogress := Program.wp_ok haccepted (gredCheck_progress qdisc fuel s)
  exact ⟨hprogress.numbers.pairwise qdisc.linked.nodup, hprogress.numbered_iff⟩

/-- A class with the number 15, the default, and one without a number. -/
def lastThenUnnumbered : Qdisc where
  classes := [0, 1]
  links
    | none => some 0
    | some 0 => some 1
    | some _ => none
  linked := ⟨rfl, rfl, rfl⟩
  info c := ⟨false, false, false, [], c == 0, none⟩
  prms := defaultPrms
  grio := false

def lastThenUnnumberedState : State where
  number c := if c = 0 then 15 else undefU32
  dp := 0
  gotDefault := false

/-- The check accepts the two classes, and leaves one with the number 16. -/
theorem lastThenUnnumbered_outside :
    ∃ links s', gredCheck lastThenUnnumbered 5 lastThenUnnumberedState =
        (.ok links, s') ∧
      ¬Numbered lastThenUnnumbered.classes s'.number := by
  refine ⟨_, _, rfl, ?_⟩
  intro h
  have hrange := h.range 1 (by decide)
  exact absurd hrange (by decide)

theorem lastThenUnnumbered_iff :
    ∃ s' : State, (Numbered lastThenUnnumbered.classes s'.number ↔
      ∀ c ∈ lastThenUnnumbered.classes,
        lastThenUnnumberedState.number c = undefU32 →
          autoNumber lastThenUnnumberedState.number lastThenUnnumbered.classes
            c < maxDPs) :=
  ⟨_, (gredCheck_numbered_iff lastThenUnnumbered 5 lastThenUnnumberedState _ _
    rfl).2⟩

end Tcng.Gred
