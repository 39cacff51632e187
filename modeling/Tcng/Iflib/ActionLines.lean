import Tcng.Ext.Tccext
import Tcng.Iflib.ActionDb

/-! The action lines of a block (`write_actions` of `iflib_actdb.c`), without
`dump_all`. -/

namespace Tcng

open Ext

/-- The numbers of policers, of classes, and of the qdiscs of classes. -/
structure ObjectNumbers where
  police : Bucket → BitVec 32
  qdisc : Class → BitVec 32
  cls : Class → BitVec 32

/-- `CLASS_TO_DECISION` -/
def ObjectNumbers.toDecision (numbers : ObjectNumbers) (c : Class) : Nat :=
  (numbers.qdisc c <<< 16 ||| numbers.cls c).toNat

/-- What a recursive walk goes to before it is done with the action. -/
def ActionNode.successors (node : ActionNode) : List (Option Nat) :=
  match node.type with
  | .atConform _ => [node.c0, node.c1]
  | .atCount _ => [node.c1]
  | _ => []

namespace ActionDb

/-- The recursion of `assign_indices` and of `dump_subtree`. -/
def visitActions {σ : Type} (db : ActionDb)
    (visit : Nat → ActionNode → σ → Option σ) : Nat → Nat → σ → Option σ
  | 0, _, _ => none
  | fuel + 1, id, s => do
      let node ← db.nodes[id]?
      let s ← node.successors.foldlM
        (fun s c => c.bind fun c => db.visitActions visit fuel c s) s
      visit id node s

end ActionDb

/-! ## Numbers -/

/-- `number` of each action (`none` for -1), what is left of
`preferred_table`, and the next index to try. -/
structure ActionIndices where
  number : Nat → Option Nat
  preferredTable : List Nat
  index : Nat

def numberAvailableSlow (index : Nat) (preferredTable : List Nat) : Bool :=
  !preferredTable.contains index

/-- The table is sorted; -1 stands at its end. -/
def numberAvailableFast (index : Nat) (preferredTable : List Nat) :
    Bool × List Nat :=
  let table :=
    match preferredTable with
    | n :: rest => if n < index then rest else n :: rest
    | [] => []
  (table.head? != some index, table)

theorem numberAvailableFast_suffix (index : Nat) (table : List Nat) :
    (numberAvailableFast index table).2 <:+ table := by
  cases table with
  | nil => exact List.suffix_rfl
  | cons n rest =>
      simp only [numberAvailableFast]
      split
      · exact List.suffix_cons n rest
      · exact List.suffix_rfl

theorem mem_of_not_available {index : Nat} {table : List Nat}
    (h : (numberAvailableFast index table).1 = false) :
    index ∈ (numberAvailableFast index table).2 := by
  have hhead : (numberAvailableFast index table).2.head? = some index := by
    simpa [numberAvailableFast] using h
  exact List.mem_of_mem_head? hhead

/-- The numbers of a table that are not behind the index. -/
def ahead (index : Nat) (table : List Nat) : List Nat :=
  table.filter fun n => decide (index ≤ n)

theorem ahead_next_lt {index : Nat} {table : List Nat}
    (h : (numberAvailableFast index table).1 = false) :
    (ahead (index + 1) (numberAvailableFast index table).2).length <
      (ahead index table).length := by
  have hmem := mem_of_not_available h
  have hsub : (ahead index (numberAvailableFast index table).2).length ≤
      (ahead index table).length :=
    ((numberAvailableFast_suffix index table).sublist.filter _).length_le
  have hfilter : ahead (index + 1) (numberAvailableFast index table).2 =
      (ahead index (numberAvailableFast index table).2).filter
        fun n => decide (index + 1 ≤ n) := by
    rw [ahead, ahead, List.filter_filter]
    apply List.filter_congr
    intro n _
    by_cases hn : index + 1 ≤ n
    · simp [hn, Nat.le_of_succ_le hn]
    · simp [hn]
  rw [hfilter]
  refine Nat.lt_of_lt_of_le ?_ hsub
  apply List.length_filter_lt_length_iff_exists.mpr
  exact ⟨index, List.mem_filter.mpr ⟨hmem, by simp⟩, by simp⟩

/-- The loop that looks for an index that nobody prefers. -/
def nextAvailable (index : Nat) (preferredTable : List Nat) :
    Nat × List Nat :=
  let available := numberAvailableFast index preferredTable
  if available.1 then (index, available.2)
  else nextAvailable (index + 1) available.2
termination_by (ahead index preferredTable).length
decreasing_by
  apply ahead_next_lt
  exact Bool.eq_false_iff.mpr ‹¬available.1 = true›

section

variable (numbers : ObjectNumbers)

/-- What `assign_indices` does after its recursion. -/
def assignIndex (preferred : Bool) (id : Nat) (node : ActionNode)
    (s : ActionIndices) : ActionIndices :=
  let s :=
    match node.type with
    | .atClass c =>
        let index := (numbers.cls c &&& 0xff).toNat
        if (s.number id).isNone && preferred &&
            numberAvailableSlow index s.preferredTable then
          { s with
            number := Function.update s.number id (some index)
            preferredTable := s.preferredTable ++ [index] }
        else s
    | _ => s
  if (s.number id).isSome || preferred then s
  else
    let (index, table) := nextAvailable s.index s.preferredTable
    ⟨Function.update s.number id (some index), table, index + 1⟩

/-- `%d` of a number. -/
def shownNumber : Option Nat → BitVec 32
  | some n => BitVec.ofNat 32 n
  | none => -1

/-- An action that has a number is only named, unless it is the one whose line
this is. -/
def dumpItems (db : ActionDb) (number : Nat → Option Nat) :
    Nat → Nat → Bool → Option ActionText
  | 0, _, _ => none
  | fuel + 1, id, top =>
      if (number id).isSome && !top then
        some (.action (shownNumber (number id)))
      else do
        let node ← db.nodes[id]?
        match node.type with
        | .atConform p => do
            let yes ← node.c1.bind fun c => dumpItems db number fuel c false
            let no ← node.c0.bind fun c => dumpItems db number fuel c false
            some (.conform (numbers.police p) yes no)
        | .atCount p => do
            let action ← node.c1.bind fun c => dumpItems db number fuel c false
            some (.count (numbers.police p) action)
        | .atClass c => some (.class ⟨numbers.qdisc c, numbers.cls c⟩ [])
        | .atDrop => some .drop
        | .atUnspec => some .unspec

/-- The actions whose `dumped` is set, and the lines. -/
structure DumpedActions where
  dumped : List Nat
  lines : List Line

/-- What `dump_subtree` does after its recursion. -/
def dumpAction (db : ActionDb) (number : Nat → Option Nat) (id : Nat)
    (s : DumpedActions) : Option DumpedActions :=
  if id ∈ s.dumped then some s
  else do
    let items ← dumpItems numbers db number (id + 1) id true
    some ⟨s.dumped ++ [id], s.lines ++ [.action (shownNumber (number id)) items]⟩

end

end Tcng
