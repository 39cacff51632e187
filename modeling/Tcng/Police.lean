import Mathlib.Data.Finset.Card
import Mathlib.Order.Interval.Finset.Nat
import Tcng.Data

/-! Numbers of policers (`police.c`). -/

namespace Tcng

structure Police where
  number : BitVec 32
  used : Bool
  created : Bool
  deriving DecidableEq, Repr

/-- The list of policers and what `assign_policer_ids` keeps between calls:
the table of gathered numbers from `curr_policer_id` on, which ends with
`UNDEF_U32`, and `ind`. -/
structure Policers where
  policers : List Police
  currPolicerId : Option (List (BitVec 32))
  ind : BitVec 32
  deriving DecidableEq, Repr

def Policers.initial : Policers := ⟨[], none, 1⟩

/-- Where the difference does not fit an `int`, it wraps around. -/
def compInt (a b : BitVec 32) : Int := (a - b).toInt

def gatherAssignedPolicerIds (policers : List Police) : List (BitVec 32) :=
  ((policers.map Police.number).filter (· ≠ undefU32)).mergeSort
    (fun a b => compInt a b ≤ 0) ++ [undefU32]

/-- The result and the table from the new position on. -/
def policerIdIsAssigned (id : BitVec 32) :
    List (BitVec 32) → Bool × List (BitVec 32)
  | [] => (false, [])
  | n :: rest =>
      if n ≠ undefU32 ∧ n < id then policerIdIsAssigned id rest
      else (n = id, n :: rest)

/-- `while (policer_id_is_assigned(ind)) ind++;` -/
def nextPolicerId : Nat → List (BitVec 32) → BitVec 32 →
    Option (BitVec 32 × List (BitVec 32))
  | 0, _, _ => none
  | fuel + 1, ids, ind =>
      let (assigned, ids) := policerIdIsAssigned ind ids
      if assigned then nextPolicerId fuel ids (ind + 1) else some (ind, ids)

/-- The loop of `assign_policer_ids`. -/
def assignNumbers (ids : List (BitVec 32)) (ind : BitVec 32) :
    List Police → Except Error Policers
  | [] => .ok ⟨[], some ids, ind⟩
  | walk :: rest => do
      if walk.number = undefU32 then
        match nextPolicerId (2 ^ 32) ids ind with
        | none => .error .outOfFuel
        | some (id, ids) =>
            let s ← assignNumbers ids (id + 1) rest
            .ok { s with policers := { walk with number := id } :: s.policers }
      else
        let s ← assignNumbers ids ind rest
        .ok { s with policers := walk :: s.policers }

/-- The table `assign_policer_ids` works with. -/
def Policers.assignedIds (s : Policers) : List (BitVec 32) :=
  s.currPolicerId.getD (gatherAssignedPolicerIds s.policers)

/-- Every caller passes the list of all policers. -/
def assignPolicerIds (s : Policers) : Except Error Policers :=
  assignNumbers s.assignedIds s.ind s.policers

def addPolice (police : Police) (s : Policers) : Except Error Policers :=
  if police.number = 0 then .error (.error "policer index must not be zero")
  else if police.number ≠ undefU32 ∧
      s.policers.any (fun check => check.number = police.number) then
    .error (.error ("duplicate policer index " ++
      toString police.number.toInt))
  else
    .ok { s with
      policers := s.policers ++ [{ police with used := false, created := false }] }

/-! ## Runs -/

inductive PolicerCall
  | addPolice (police : Police)
  | assignPolicerIds
  deriving DecidableEq, Repr

def PolicerCall.perform : PolicerCall → Policers → Except Error Policers
  | .addPolice police, s => Tcng.addPolice police s
  | .assignPolicerIds, s => Tcng.assignPolicerIds s

/-- The table has this number where the search looks for it. -/
def Taken (ids : List (BitVec 32)) (n : BitVec 32) : Prop :=
  (policerIdIsAssigned n ids).1 = true

instance (ids : List (BitVec 32)) (n : BitVec 32) : Decidable (Taken ids n) :=
  inferInstanceAs (Decidable (_ = _))

/-- How many numbers in a range the search would not skip. -/
def untaken (ids : List (BitVec 32)) (low high : Nat) : Nat :=
  ((Finset.Ico low high).filter fun n => ¬Taken ids (.ofNat 32 n)).card

/-- How many policers wait for a number. -/
def unnumbered (policers : List Police) : Nat :=
  policers.countP fun police => police.number = undefU32

/-- The counter does not reach `UNDEF_U32` in the next assignment. -/
def Policers.Room (s : Policers) : Prop :=
  unnumbered s.policers ≤ untaken s.assignedIds s.ind.toNat undefU32.toNat

/-- Each listed number that the counter has not passed is either skipped, or
there are enough others before it. -/
def Policers.Reserved (s : Policers) : Prop :=
  ∀ police ∈ s.policers, police.number ≠ undefU32 →
    s.ind.toNat ≤ police.number.toNat → ¬Taken s.assignedIds police.number →
      unnumbered s.policers ≤
        untaken s.assignedIds s.ind.toNat police.number.toNat

/-! ## The search -/

private theorem compInt_le_iff {a b : BitVec 32} (ha : a.toNat < 2 ^ 31)
    (hb : b.toNat < 2 ^ 31) : compInt a b ≤ 0 ↔ a ≤ b := by
  rw [compInt, BitVec.toInt_eq_toNat_cond, BitVec.toNat_sub]
  split <;> bv_omega

/-- Numbers of up to 31 bits are sorted by value. -/
private theorem gathered_sorted {numbers : List (BitVec 32)}
    (hsmall : ∀ n ∈ numbers, n.toNat < 2 ^ 31) :
    (numbers.mergeSort fun a b => compInt a b ≤ 0).Pairwise (· ≤ ·) := by
  have hsame : numbers.mergeSort (fun a b => compInt a b ≤ 0) =
      numbers.mergeSort (fun a b => decide (a ≤ b)) := by
    have hmap := List.map_mergeSort (l := numbers) (f := id)
      (r := fun a b => decide (compInt a b ≤ 0))
      (s := fun a b => decide (a ≤ b)) (by
        intro a ha b hb
        rw [decide_eq_decide]
        exact compInt_le_iff (hsmall a ha) (hsmall b hb))
    simpa using hmap
  rw [hsame]
  have hsorted : (numbers.mergeSort fun a b => decide (a ≤ b)).Pairwise
      fun a b => decide (a ≤ b) = true := by
    apply List.pairwise_mergeSort
    · intro a b c hab hbc
      exact decide_eq_true
        (BitVec.le_trans (of_decide_eq_true hab) (of_decide_eq_true hbc))
    · intro a b
      simpa using BitVec.le_total a b
  simpa using hsorted

private theorem taken_of_sorted {numbers : List (BitVec 32)} {n : BitVec 32}
    (hsorted : numbers.Pairwise (· ≤ ·)) (hundef : undefU32 ∉ numbers)
    (h : n ∈ numbers) : Taken (numbers ++ [undefU32]) n := by
  induction numbers with
  | nil => cases h
  | cons first rest ih =>
      obtain ⟨hfirst, hrest⟩ := List.pairwise_cons.mp hsorted
      rw [List.mem_cons, not_or] at hundef
      rw [Taken, List.cons_append, policerIdIsAssigned]
      split
      · rename_i hskip
        rcases List.mem_cons.mp h with heq | hmem
        · bv_omega
        · exact ih hrest hundef.2 hmem
      · rename_i hstop
        have hle : n ≤ first := by
          have hne := hundef.1
          by_contra hlt
          apply hstop
          exact ⟨fun heq => hne heq.symm, by bv_omega⟩
        have heq : first = n := by
          rcases List.mem_cons.mp h with heq | hmem
          · exact heq.symm
          · exact BitVec.le_antisymm (hfirst n hmem) hle
        exact decide_eq_true heq

/-- Numbers of up to 31 bits that are given before the first assignment are
out of its way. -/
theorem reserved_of_gathered {s : Policers} (hfirst : s.currPolicerId = none)
    (hsmall : ∀ police ∈ s.policers, police.number ≠ undefU32 →
      police.number.toNat < 2 ^ 31) : s.Reserved := by
  intro police hpolice hnumber _ huntaken
  apply absurd _ huntaken
  rw [Policers.assignedIds, hfirst, Option.getD_none, gatherAssignedPolicerIds]
  apply taken_of_sorted
  · apply gathered_sorted
    intro n hn
    simp only [List.mem_filter, List.mem_map, decide_eq_true_eq] at hn
    obtain ⟨⟨p, hp, rfl⟩, hne⟩ := hn
    exact hsmall p hp hne
  · simp
  · rw [List.mem_mergeSort]
    simp only [List.mem_filter, List.mem_map, decide_eq_true_eq]
    exact ⟨⟨police, hpolice, rfl⟩, hnumber⟩

end Tcng
