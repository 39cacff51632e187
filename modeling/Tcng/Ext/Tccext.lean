import Tcng.Buckets

/-! The qdiscs, classes and actions of a block, as `tccext_parse` reads them
(`tccext.c`). Objects have addresses in the order they are made in. -/

namespace Tcng.Ext

open History

structure Parameter where
  name : String
  value : BitVec 32
  deriving DecidableEq, Repr

structure TccextClass where
  address : Nat
  parentQdisc : Nat
  index : BitVec 32
  qdisc : Option Nat
  parameters : List Parameter
  deriving DecidableEq, Repr

/-- A list of classes; each class has a list of its own. -/
inductive Classes
  | nil
  | cons (c : TccextClass) (classes next : Classes)
  deriving DecidableEq, Repr

structure TccextQdisc where
  address : Nat
  type : Option String
  index : BitVec 32
  parameters : List Parameter
  classes : Classes
  deriving DecidableEq, Repr

inductive TccextAction
  | found (action : Option Nat)
  | class (classList : List Nat)
  | drop
  | unspec
  | conform (bucket : BitVec 32) (yesAction noAction : TccextAction)
  | count (bucket : BitVec 32) (action : TccextAction)
  deriving DecidableEq, Repr

/-- `qdisc:cls` -/
structure ClassRef where
  qdisc : BitVec 32
  cls : BitVec 32
  deriving DecidableEq, Repr

structure ListedAction where
  address : Nat
  index : BitVec 32
  action : TccextAction
  deriving DecidableEq, Repr

/-- A block, with `cyclic` if the last action leads back to the first one.
What follows `allocated` is only kept for the record: the addresses of all
qdiscs, and each class reference with the class it got. -/
structure TccextBlock where
  qdiscs : List TccextQdisc
  actions : List ListedAction
  cyclic : Bool
  allocated : Nat
  created : List Nat
  resolved : List (ClassRef × Nat)
  deriving DecidableEq, Repr

def TccextBlock.empty : TccextBlock := ⟨[], [], false, 0, [], []⟩

/-! ## Lines -/

inductive ActionText
  | action (next : BitVec 32)
  | class (first : ClassRef) (rest : List ClassRef)
  | drop
  | unspec
  | conform (bucket : BitVec 32) (yes no : ActionText)
  | count (bucket : BitVec 32) (action : ActionText)
  deriving DecidableEq, Repr

inductive Line
  | qdisc (index : BitVec 32) (type : String) (parameters : List Parameter)
  | class (index : BitVec 32) (parameters : List Parameter)
  | action (index : BitVec 32) (text : ActionText)
  deriving DecidableEq, Repr

/-! ## Classes -/

namespace Classes

def findClass : Classes → BitVec 32 → Option TccextClass
  | nil, _ => none
  | cons c classes next, index =>
      if c.index = index then some c
      else
        match classes.findClass index with
        | some found => some found
        | none => next.findClass index

def append : Classes → TccextClass → Classes
  | nil, new => cons new nil nil
  | cons c classes next, new => cons c classes (next.append new)

/-- `new` goes to the end of the list of the class `find_class` finds. -/
def appendTo : Classes → BitVec 32 → TccextClass → Option Classes
  | nil, _, _ => none
  | cons c classes next, parent, new =>
      if c.index = parent then some (cons c (classes.append new) next)
      else
        match classes.appendTo parent new with
        | some classes => some (cons c classes next)
        | none => (next.appendTo parent new).map (cons c classes)

end Classes

/-- The parameters without the one that is taken out, and its value. -/
def extract (name : String) : List Parameter → BitVec 32 × List Parameter
  | [] => (-1, [])
  | p :: params =>
      if p.name = name then (p.value, params)
      else
        let (result, params) := extract name params
        (result, p :: params)

/-! ## Qdiscs -/

def findQdisc (qdiscs : List TccextQdisc) (index : BitVec 32) :
    Option TccextQdisc :=
  qdiscs.find? (·.index = index)

def findQdiscClass (qdiscs : List TccextQdisc) (qdisc cls : BitVec 32) :
    Option TccextClass :=
  match findQdisc qdiscs qdisc with
  | none => none
  | some qdisc => qdisc.classes.findClass cls

/-- The object at `address` is changed in its list. -/
def setClasses (address : Nat) (classes : Classes) (qdiscs : List TccextQdisc) :
    List TccextQdisc :=
  qdiscs.map fun q => if q.address = address then { q with classes } else q

def fudgeQdisc (s : TccextBlock) (index : BitVec 32) :
    TccextQdisc × TccextBlock :=
  let qdisc := ⟨s.allocated, none, index, [], .nil⟩
  (qdisc, { s with
    qdiscs := [qdisc]
    allocated := s.allocated + 1
    created := s.created ++ [s.allocated] })

def fudgeClass (s : TccextBlock) (qdiscIndex classIndex : BitVec 32) :
    TccextClass × TccextBlock :=
  let (qdisc, s) :=
    match findQdisc s.qdiscs qdiscIndex with
    | some qdisc => (qdisc, s)
    | none => fudgeQdisc s qdiscIndex
  let new := ⟨s.allocated, qdisc.address, classIndex, none, []⟩
  (new, { s with
    qdiscs := setClasses qdisc.address (qdisc.classes.append new) s.qdiscs
    allocated := s.allocated + 1 })

def parseQdisc (index : BitVec 32) (type : String)
    (parameters : List Parameter) (s : TccextBlock) :
    Except Error TccextBlock :=
  match findQdisc s.qdiscs index with
  | some _ =>
      .error (.error ("duplicate qdisc index " ++ toString index.toInt))
  | none =>
      .ok { s with
        qdiscs := ⟨s.allocated, some type, index, parameters, .nil⟩ :: s.qdiscs
        allocated := s.allocated + 1
        created := s.created ++ [s.allocated] }

def childQdisc (qdiscs : List TccextQdisc) (qdisc : BitVec 32) :
    Except Error (Option Nat) :=
  if qdisc = -1 then .ok none
  else
    match findQdisc qdiscs qdisc with
    | some qdisc => .ok (some qdisc.address)
    | none => .error (.error ("qdisc " ++ toString qdisc.toInt ++ " not found"))

def linkClass (classes : Classes) (parent : BitVec 32) (new : TccextClass) :
    Except Error Classes :=
  if parent = -1 then .ok (classes.append new)
  else
    match classes.appendTo parent new with
    | some classes => .ok classes
    | none =>
        .error (.error ("parent class " ++ toString parent.toInt ++
          " not found"))

/-- The class belongs to the qdisc that was read last. -/
def parseClass (index : BitVec 32) (parameters : List Parameter)
    (s : TccextBlock) : Except Error TccextBlock := do
  let (parent, parameters) := extract "parent" parameters
  let (qdisc, parameters) := extract "qdisc" parameters
  let qdisc ← childQdisc s.qdiscs qdisc
  match s.qdiscs with
  | [] => .error (.assertion "ctx->blocks->qdiscs")
  | top :: _ =>
      if (top.classes.findClass index).isSome then
        .error (.error ("duplicate class " ++ toString index.toInt ++
          " on qdisc " ++ toString top.index.toInt))
      else do
        let new := ⟨s.allocated, top.address, index, qdisc, parameters⟩
        let classes ← linkClass top.classes parent new
        .ok { s with
          qdiscs := setClasses top.address classes s.qdiscs
          allocated := s.allocated + 1 }

/-! ## Actions -/

def findAction (actions : List ListedAction) (index : BitVec 32) : Option Nat :=
  (actions.find? (·.index = index)).map (·.address)

/-- One entry of a class list. -/
def resolveClass (ref : ClassRef) (s : TccextBlock) : Nat × TccextBlock :=
  let (found, s) :=
    match findQdiscClass s.qdiscs ref.qdisc ref.cls with
    | some found => (found, s)
    | none => fudgeClass s ref.qdisc ref.cls
  (found.address, { s with
    resolved := s.resolved ++ [(ref, found.address)] })

def parseClassList : List ClassRef → TccextBlock → List Nat × TccextBlock
  | [], s => ([], s)
  | ref :: refs, s =>
      let (first, s) := resolveClass ref s
      let (rest, s) := parseClassList refs s
      (first :: rest, s)

section

variable (buckets : List TccextBucket)

def parseAction :
    ActionText → TccextBlock → Except Error (TccextAction × TccextBlock)
  | .action next, s => .ok (.found (findAction s.actions next), s)
  | .class first rest, s =>
      let (classList, s) := parseClassList (first :: rest) s
      .ok (.class classList, s)
  | .drop, s => .ok (.drop, s)
  | .unspec, s => .ok (.unspec, s)
  | .conform bucket yes no, s => do
      let bucket ← findBucket buckets bucket
      let (yes, s) ← parseAction yes s
      let (no, s) ← parseAction no s
      .ok (.conform bucket.index yes no, s)
  | .count bucket action, s => do
      let bucket ← findBucket buckets bucket
      let (action, s) ← parseAction action s
      .ok (.count bucket.index action, s)

/-- An action that is already listed becomes the first one of the list, also
for the one that led to it. -/
def parseActions (index : BitVec 32) (text : ActionText) (s : TccextBlock) :
    Except Error TccextBlock := do
  if s.actions.any (·.index = index) then
    .error (.error ("duplicate action index " ++ toString index.toInt))
  else if s.cyclic then .error .outOfFuel
  else
    let (action, s) ← parseAction buckets text s
    match action with
    | .found none => .error (.assertion "action")
    | .found (some address) =>
        let listed := s.actions.filter (·.address = address)
        .ok { s with
          actions := listed.map (fun a => { a with index := index }) ++
            s.actions.takeWhile (·.address ≠ address)
          cyclic := true }
    | action =>
        .ok { s with
          actions := ⟨s.allocated, index, action⟩ :: s.actions
          allocated := s.allocated + 1 }

def parseLine : Line → TccextBlock → Except Error TccextBlock
  | .qdisc index type parameters, s => parseQdisc index type parameters s
  | .class index parameters, s => parseClass index parameters s
  | .action index text, s => parseActions buckets index text s

def parseLines : List Line → TccextBlock → Except Error TccextBlock
  | [], s => .ok s
  | line :: lines, s => do
      let s ← parseLine buckets line s
      parseLines lines s

end

end Tcng.Ext
