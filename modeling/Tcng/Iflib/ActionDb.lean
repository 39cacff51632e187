import Mathlib.Logic.Function.Basic
import Tcng.Data

/-! Action trees and the tables through which they share nodes
(`iflib_actdb.c`). -/

namespace Tcng

/-- `type` of a `struct action` with the member of `u` it selects. -/
inductive ActionType
  | atConform (p : Bucket)
  | atCount (p : Bucket)
  | atClass (c : Class)
  | atDrop
  | atUnspec
  deriving DecidableEq, Repr

/-- The tree `add_actions` builds; `c0` is taken if a bucket does not
conform. -/
inductive Action
  | conform (p : Bucket) (c0 c1 : Action)
  | count (p : Bucket) (c1 : Action)
  | class (c : Class)
  | drop
  | unspec
  deriving DecidableEq, Repr

namespace Action

def type : Action → ActionType
  | conform p _ _ => .atConform p
  | count p _ => .atCount p
  | .class c => .atClass c
  | drop => .atDrop
  | unspec => .atUnspec

/-- The buckets counted on the way and the leaf reached. -/
def evaluate (conforms : Bucket → Bool) : Action → List Bucket × ActionType
  | conform p c0 c1 =>
      if conforms p then c1.evaluate conforms else c0.evaluate conforms
  | count p c1 =>
      let result := c1.evaluate conforms
      (p :: result.1, result.2)
  | leaf => ([], leaf.type)

end Action

def makeLeaf : Decision → Except Error Action
  | .drClass toClass => .ok (.class toClass)
  | .drDrop => .ok .drop
  | .drContinue => .ok .unspec
  | .drReclassify _ => .error (.dumpFailed "unsupported decision")

def addActions (d next otherwise : Data) : Except Error Action :=
  match d with
  | .op .logicalOr _ a b _ => addActions a .none b
  | .op .logicalAnd _ a b _ => addActions a b otherwise
  | .op .conform _ (.police p) _ _ => do
      let c1 ← addActions next .none otherwise
      let c0 ← addActions otherwise .none .none
      .ok (.conform p c0 c1)
  | .op .count _ (.police p) _ _ => do
      let c1 ← addActions next .none otherwise
      .ok (.count p c1)
  | .decision decision => makeLeaf decision
  | _ => .error (.dumpFailed "unknown action")
termination_by d.size + next.size + otherwise.size
decreasing_by
  all_goals
    have := next.size_pos
    have := otherwise.size_pos
    simp only [Data.size]
    omega

/-- `branches` are the conform tests above with the branch taken, innermost
first. -/
def repeatedActions (branches : List (Bucket × Bool)) : Action → Action
  | .conform p c0 c1 =>
      match branches.lookup p with
      | some false => repeatedActions branches c0
      | some true => repeatedActions branches c1
      | none =>
          .conform p (repeatedActions ((p, false) :: branches) c0)
            (repeatedActions ((p, true) :: branches) c1)
  | .count p c1 => .count p (repeatedActions branches c1)
  | leaf => leaf

/-- A stored `struct action`; actions are referred to by their number in
`ActionDb.nodes`. -/
structure ActionNode where
  type : ActionType
  c0 : Option Nat
  c1 : Option Nat
  referers : List Nat
  deriving DecidableEq, Repr

/-- The nodes in use, `hash` and the list from `root`. -/
structure ActionDb where
  nodes : List ActionNode
  hash : Nat → List Nat
  root : List Nat

namespace ActionDb

/-- After `free_actions`. -/
def empty : ActionDb := ⟨[], fun _ => [], []⟩

def actionEq (db : ActionDb) (type : ActionType) (id : Nat) : Bool :=
  match db.nodes[id]? with
  | some node => node.type == type
  | none => false

def referers (db : ActionDb) (id : Nat) : List Nat :=
  match db.nodes[id]? with
  | some node => node.referers
  | none => []

def alloc (db : ActionDb) (type : ActionType) (c0 c1 : Option Nat) :
    ActionDb :=
  { db with nodes := db.nodes ++ [⟨type, c0, c1, []⟩] }

def addReferer (db : ActionDb) (action referer : Nat) : ActionDb :=
  { db with nodes := db.nodes.modify action fun node =>
      { node with referers := node.referers ++ [referer] } }

section

-- `CLASS_TO_DECISION`, from the numbers of a class and of its qdisc
variable (toDecision : Class → Nat)

def hashEntries : Nat := 47

def hashKey : ActionType → Nat
  | .atClass c => toDecision c % hashEntries
  | _ => 0

def hashFind (type : ActionType) (db : ActionDb) : Nat × ActionDb :=
  let key := hashKey toDecision type
  match (db.hash key).find? (db.actionEq type) with
  | some id => (id, db)
  | none =>
      let id := db.nodes.length
      let hash := Function.update db.hash key (id :: db.hash key)
      (id, { db.alloc type none none with hash })

def uniqueAction : Action → ActionDb → Nat × ActionDb
  | .conform p c0 c1, db =>
      let (c0, db) := uniqueAction c0 db
      let (c1, db) := uniqueAction c1 db
      match (db.referers c0).find? fun referer =>
          db.actionEq (.atConform p) referer &&
            (db.referers c1).contains referer with
      | some referer => (referer, db)
      | none =>
          let id := db.nodes.length
          let db := db.alloc (.atConform p) (some c0) (some c1)
          (id, (db.addReferer c0 id).addReferer c1 id)
  | .count p c1, db =>
      let (c1, db) := uniqueAction c1 db
      match (db.referers c1).find? (db.actionEq (.atCount p)) with
      | some referer => (referer, db)
      | none =>
          let id := db.nodes.length
          let db := db.alloc (.atCount p) none (some c1)
          (id, db.addReferer c1 id)
  | leaf, db => hashFind toDecision leaf.type db

def toUnique (a : Action) (db : ActionDb) : ActionDb :=
  let (res, db) := uniqueAction toDecision a db
  if res ∈ db.root then db else { db with root := res :: db.root }

def registerActions (d : Data) (db : ActionDb) : Except Error ActionDb := do
  let action ← addActions d .none .none
  .ok (toUnique toDecision (repeatedActions [] action) db)

def getAction (d : Data) (db : ActionDb) :
    Except Error (Nat × ActionDb) := do
  let action ← addActions d .none .none
  .ok (uniqueAction toDecision (repeatedActions [] action) db)

end

/-- Evaluation of a stored action, following at most `fuel` nodes. -/
def walk (db : ActionDb) (conforms : Bucket → Bool) :
    Nat → Nat → Option (List Bucket × ActionType)
  | 0, _ => none
  | fuel + 1, id =>
      match db.nodes[id]? with
      | none => none
      | some node =>
          match node.type with
          | .atConform p =>
              (if conforms p then node.c1 else node.c0).bind
                (db.walk conforms fuel)
          | .atCount p =>
              (node.c1.bind (db.walk conforms fuel)).map fun result =>
                (p :: result.1, result.2)
          | leaf => some ([], leaf)

/-- Successors are stored before an action. -/
def evaluate (db : ActionDb) (conforms : Bucket → Bool) (id : Nat) :
    Option (List Bucket × ActionType) :=
  db.walk conforms (id + 1) id

end ActionDb

end Tcng
