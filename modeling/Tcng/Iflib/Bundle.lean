import Mathlib.Data.List.Chain
import Tcng.Iflib.Chains

/-! Common `&&` prefixes in a `||` chain (`bundle` of `iflib_red.c`). -/

namespace Tcng

open ShortCircuit

def andCells : Data → List Data
  | .op .logicalAnd _ a b _ => a :: andCells b
  | d => [d]

/-- The rows of the matrix, each with its cells. -/
def bundleMakeMatrix : Data → List (List Data)
  | .op .logicalOr _ a b _ => andCells a :: bundleMakeMatrix b
  | d => [andCells d]

/-- `ors` rows from row `first` on, and their first `ands` cells. -/
structure Rectangle where
  first : Nat
  ors : Nat
  ands : Nat
  deriving DecidableEq, Repr

def Rectangle.area (r : Rectangle) : Nat := r.ors * r.ands

def bundleThreshold : Nat := 2

section

variable (m : List (List Data))

def cellsAgree (first ors ands : Nat) : Bool :=
  ((m.drop (first + 1)).take (ors - 1)).all fun row =>
    (List.range ands).all fun j =>
      ((m.getD first []).getD j .none).exprEqual (row.getD j .none)

/-- The loop over `ands`, left at the first disagreement. -/
def findAnds (first ors : Nat) : Nat → Nat → Rectangle → Rectangle
  | 0, _, best => best
  | left + 1, ands, best =>
      if cellsAgree m first ors ands then
        findAnds first ors left (ands + 1)
          (if best.area < ors * ands then ⟨first, ors, ands⟩ else best)
      else best

def minAnds : List (List Data) → Nat
  | [] => 0
  | [row] => row.length
  | row :: rows => min row.length (minAnds rows)

def findOrs (best : Rectangle) (first : Nat) : Rectangle :=
  (List.range (m.length - first - 1)).foldl (fun best k =>
    let ors := k + 2
    let ands := minAnds ((m.drop first).take ors)
    if ors * ands < best.area then best
    else findAnds m first ors ands 1 best) best

def bundleFindBest : Rectangle :=
  (List.range m.length).foldl (findOrs m) ⟨0, 0, 0⟩

end

/-- Items from `start` on, all of them or the given number. -/
def segment {α : Type} (items : List α) (start : Nat) (count : Option Nat) :
    List α :=
  match count with
  | none => items.drop start
  | some n => (items.drop start).take n

def andCellsEval : List Data → Data → Except Error Data
  | [], tmp => .ok tmp
  | cell :: cells, tmp => do
      let tmp ← andCellsEval cells tmp
      andOrEval .logicalAnd cell tmp

def bundleAnds (row : List Data) (start : Nat) (ands : Option Nat)
    (add : Data) : Except Error Data :=
  let cells := segment row start ands
  if add.type = .none then
    match cells.getLast? with
    | none => .ok .none
    | some last => andCellsEval cells.dropLast last
  else andCellsEval cells add

/-- The loop over the rows, from the last one up. -/
def orRowsEval (start : Nat) (ands : Option Nat) :
    List (List Data) → Data → Except Error Data
  | [], tmp => .ok tmp
  | row :: rows, tmp => do
      let tmp ← orRowsEval start ands rows tmp
      if tmp.type = .none then .ok tmp -- a || ab -> a
      else do
        let d ← bundleAnds row start ands .none
        andOrEval .logicalOr d tmp

def bundleOrs (m : List (List Data)) (first : Nat) (ors : Option Nat)
    (start : Nat) (ands : Option Nat) (add : Data) : Except Error Data :=
  let rows := segment m first ors
  if add.type = .none then
    match rows.getLast? with
    | none => .ok .none
    | some last => do
        let tmp ← bundleAnds last start ands .none
        orRowsEval start ands rows.dropLast tmp
  else orRowsEval start ands rows add

def bundleRebuild (m : List (List Data)) (r : Rectangle) :
    Except Error Data := do
  let new ← bundleOrs m r.first (some r.ors) r.ands none .none
  let new ← bundleAnds (m.getD r.first []) 0 (some r.ands) new
  let d ←
    if r.first + r.ors = m.length then .ok new
    else do
      let rest ← bundleOrs m (r.first + r.ors) none 0 none .none
      andOrEval .logicalOr new rest
  if r.first = 0 then .ok d
  else bundleOrs m 0 (some r.first) 0 none d

def bundle : Nat → Data → Except Error Data
  | 0, _ => .error .outOfFuel
  | fuel + 1, d =>
      match d with
      | .op .logicalOr .. =>
          let m := bundleMakeMatrix d
          let best := bundleFindBest m
          if best.area < bundleThreshold then mapOperands (bundle fuel) d
          else do
            let d ← bundleRebuild m best
            bundle fuel d
      | d => mapOperands (bundle fuel) d

end Tcng
