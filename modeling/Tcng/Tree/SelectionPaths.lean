import Tcng.Data
import Tcng.Tree.Qdisc

/-! Class selection paths (`csp.c`): numbers for classes that select a path
through an inner qdisc, and the filters that follow it. -/

namespace Tcng.Csp

open Program

/-! Qdiscs and classes are known by their addresses. -/

structure QdiscInfo where
  address : Nat
  gred : Bool
  deriving DecidableEq, Repr

/-- A class of the inner qdisc or below; `parent` is `parent.qdisc`. -/
structure ClassInfo where
  address : Class
  number : Nat
  parent : QdiscInfo
  deriving DecidableEq, Repr

abbrev InnerQdisc := Qdisc QdiscInfo ClassInfo

abbrev InnerClasses := Classes QdiscInfo ClassInfo

/-- An element of the list of a path. -/
inductive PathRef
  | toClass (c : Class)
  | other (typeName : String)
  deriving DecidableEq, Repr

/-- A class of the outer qdisc; without `selPath`, it does not select. -/
structure OuterClass where
  address : Class
  selPath : Option (List PathRef)
  deriving DecidableEq, Repr

structure Element where
  toClass : Class
  number : BitVec 32
  deriving DecidableEq, Repr

/-- A `tcindex` filter. -/
structure Filter where
  number : Nat
  shift : BitVec 32
  mask : BitVec 32
  elements : List Element
  deriving DecidableEq, Repr

/-- `CSP_SEL_PATH` -/
structure SelPath where
  path : List ClassInfo
  equals : Nat
  index : Nat
  deriving DecidableEq, Repr

/-- `CSP_SEL_CLASS` -/
structure SelClass where
  info : ClassInfo
  number : Nat
  deriving DecidableEq, Repr

/-- `CSP_SEL_QDISC`; `selection_bits` sets `shift` and `bits`. -/
structure SelQdisc where
  qdisc : QdiscInfo
  classes : List SelClass
  numClasses : Nat
  shift : Nat := 0
  bits : Nat := 0
  deriving DecidableEq, Repr

/-- The context, `qdisc->filters` of the inner qdiscs and `class->number` of
the outer classes; a `CSP_SEL_REF` is the class whose number it points to. -/
structure State where
  paths : List SelPath
  refs : List Class
  qdiscs : List SelQdisc
  filters : Nat → List Filter
  numbers : Class → BitVec 32

abbrev Select := Program State Error

def nullPointer : Error := .assertion "null pointer"

/-! Registering paths. -/

def SelQdisc.register (q : SelQdisc) (cl : ClassInfo) : SelQdisc :=
  if q.classes.any (·.info.address == cl.address) then q
  else if q.qdisc.gred then
    { q with classes := ⟨cl, cl.number⟩ :: q.classes }
  else
    { q with
      numClasses := q.numClasses + 1
      classes := ⟨cl, q.numClasses + 1⟩ :: q.classes }

/-- `ctx->qdiscs`, changed where the qdisc is first found. -/
def updateQdisc (address : Nat) (f : SelQdisc → SelQdisc) :
    List SelQdisc → List SelQdisc
  | [] => []
  | q :: qdiscs =>
      if q.qdisc.address = address then f q :: qdiscs
      else q :: updateQdisc address f qdiscs

def findQdisc (qdiscs : List SelQdisc) (address : Nat) : Option SelQdisc :=
  qdiscs.find? (·.qdisc.address == address)

def registerSelClass (qdiscs : List SelQdisc) (cl : ClassInfo) :
    List SelQdisc :=
  match findQdisc qdiscs cl.parent.address with
  | none =>
      SelQdisc.register { qdisc := cl.parent, classes := [], numClasses := 0 }
        cl :: qdiscs
  | some _ => updateQdisc cl.parent.address (·.register cl) qdiscs

def samePath (a b : List ClassInfo) : Bool :=
  a.map ClassInfo.address == b.map ClassInfo.address

/-- The paths with a new one. -/
def addSelPath (path : List ClassInfo) (paths : List SelPath) :
    List SelPath :=
  let n := paths.countP fun walk => samePath walk.path path
  ⟨path, n + 1, n⟩ :: paths.map fun walk =>
    if samePath walk.path path then { walk with equals := walk.equals + 1 }
    else walk

/-- `prev` holds the classes from the last one to the first. -/
def registerSelPath (path : List ClassInfo) : List ClassInfo → Select Unit
  | [] => modify fun s => { s with paths := addSelPath path s.paths }
  | this :: prev => do
      let s ← get
      if s.filters this.parent.address ≠ [] then
        throw (.error
          "qdisc must not have filters when using class selection path")
      else do
        modify fun s => { s with qdiscs := registerSelClass s.qdiscs this }
        registerSelPath (this :: path) prev

mutual

/-- The result is `*last_class`. -/
def findLastClass (list : List Class) (lastClass : Option Class) (left : Nat)
    (prev : List ClassInfo) : InnerClasses → Select (Option Class)
  | .null => pure lastClass
  | .class this qdisc child next => do
      if this.address ∉ list then do
        let lastClass ← findInQdisc list lastClass left (this :: prev) qdisc
        let lastClass ← findLastClass list lastClass left prev child
        findLastClass list lastClass left prev next
      else if left = 1 then
        if lastClass ≠ none ∧ lastClass ≠ some this.address then
          throw (.error "class selection path is not unique")
        else do
          registerSelPath [] (this :: prev)
          findLastClass list (some this.address) left prev next
      else if qdisc matches .null then
        throw (.error "unfinished class selection path reaches leaf")
      else do
        let lastClass ←
          findInQdisc list lastClass (left - 1) (this :: prev) qdisc
        let lastClass ← findLastClass list lastClass left prev child
        findLastClass list lastClass left prev next

/-- `find_last_class` on the classes of a qdisc. -/
def findInQdisc (list : List Class) (lastClass : Option Class) (left : Nat)
    (prev : List ClassInfo) : InnerQdisc → Select (Option Class)
  | .null => pure lastClass
  | .qdisc _ classes => findLastClass list lastClass left prev classes

end

/-- The number of different classes of a list; `before` is the part already
seen. -/
def countPathClasses (before : List Class) :
    List PathRef → Except Error (List Class × Nat)
  | [] => .ok (before, 0)
  | .other typeName :: _ =>
      .error (.error ("invalid type in class selection path (expected class," ++
        " not " ++ typeName ++ ")"))
  | .toClass c :: list => do
      let (classes, n) ← countPathClasses (before ++ [c]) list
      .ok (classes, if c ∈ before then n else n + 1)

def registerSelectionPath (number : Class) (list : List PathRef)
    (inner : InnerQdisc) : Select Unit := do
  let (list, classes) ← lift (countPathClasses [] list)
  if list ≠ [] ∧ inner matches .null then
    throw (.error
      "without an inner qdisc, there is scarcely anything to select")
  else do
    if list = [] then registerSelPath [] []
    else do
      let lastClass ← findInQdisc list none classes [] inner
      if lastClass = none then
        throw (.error "cannot resolve class selection path")
      else pure ()
    modify fun s => { s with refs := number :: s.refs }

/-! Numbers and filters. -/

/-- The loops `for (bits = ..; 1 << bits < limit; bits++)`. -/
def countBits (limit bits : Nat) : Nat :=
  if 2 ^ bits < limit then countBits limit (bits + 1) else bits
termination_by limit - 2 ^ bits
decreasing_by
  have : 2 ^ bits < 2 ^ (bits + 1) := Nat.pow_lt_pow_right (by omega) (by omega)
  omega

mutual

/-- Bits are reserved for 0, which selects no class. -/
def selectionBits (qdiscs : List SelQdisc) :
    InnerQdisc → List SelQdisc × Nat
  | .null => (qdiscs, 0)
  | .qdisc info classes =>
      match findQdisc qdiscs info.address with
      | none => (qdiscs, 0)
      | some q =>
          let bits := if info.gred then 4 else countBits (q.numClasses + 1) 0
          let qdiscs := updateQdisc info.address ({ · with bits }) qdiscs
          let (qdiscs, shift) := maxBits qdiscs 0 classes
          let qdiscs := updateQdisc info.address ({ · with shift }) qdiscs
          (qdiscs, shift + bits)

def maxBits (qdiscs : List SelQdisc) (max : Nat) :
    InnerClasses → List SelQdisc × Nat
  | .null => (qdiscs, max)
  | .class _ qdisc child next =>
      let (qdiscs, bits) := selectionBits qdiscs qdisc
      let max := if bits > max then bits else max
      let (qdiscs, bits) := maxBits qdiscs 0 child
      let max := if bits > max then bits else max
      maxBits qdiscs max next

end

/-- `CSP_INDEX_BITS` -/
def cspIndexBits : Nat := 15

def State.setFilters (s : State) (address : Nat) (filters : List Filter) :
    State :=
  { s with filters := fun a => if a = address then filters else s.filters a }

/-- The filter is the last one of the qdisc. -/
def selAddTcindex (qdisc : QdiscInfo) (shift maskBits : Nat) : Select Unit :=
  modify fun s =>
    let filters := s.filters qdisc.address
    s.setFilters qdisc.address (filters ++ [
      { number := filters.length + 1
        shift := .ofNat 32 shift
        mask := .ofNat 32 ((2 ^ maskBits - 1) <<< shift)
        elements := [] }])

def Filter.addElement (f : Filter) (cl : ClassInfo) (n : Nat) : Filter :=
  { f with elements := f.elements ++ [⟨cl.address, .ofNat 32 n⟩] }

/-- The elements for all registered classes of a qdisc. -/
def addElements (f : Filter) (classes : List SelClass) : Filter :=
  classes.foldl (fun f cl => f.addElement cl.info cl.number) f

def selAddHierFilters : List SelQdisc → Select Unit
  | [] => pure ()
  | q :: qdiscs => do
      if q.qdisc.gred then selAddHierFilters qdiscs
      else do
        selAddTcindex q.qdisc q.shift q.bits
        modify fun s =>
          let filters := s.filters q.qdisc.address
          s.setFilters q.qdisc.address
            (filters.modify (filters.length - 1) (addElements · q.classes))
        selAddHierFilters qdiscs

/-- What is registered for a class. -/
def findClass (qdiscs : List SelQdisc) (cl : ClassInfo) :
    Except Error (SelQdisc × SelClass) :=
  match findQdisc qdiscs cl.parent.address with
  | none => .error nullPointer
  | some q =>
      match q.classes.find? (·.info.address == cl.address) with
      | none => .error nullPointer
      | some selClass => .ok (q, selClass)

def pathNumber (qdiscs : List SelQdisc) (number : BitVec 32) :
    List ClassInfo → Except Error (BitVec 32)
  | [] => .ok number
  | elem :: path => do
      let (q, cl) ← findClass qdiscs elem
      pathNumber qdiscs (number ||| .ofNat 32 (cl.number <<< q.shift)) path

def setNumber (ref : Class) (number : BitVec 32) : Select Unit :=
  modify fun s =>
    { s with numbers := fun c => if c = ref then number else s.numbers c }

def selSetClassNumbers (topShift : Nat) :
    List Class → List SelPath → Select Unit
  | [], _ => pure ()
  | _ :: _, [] => throw nullPointer
  | ref :: refs, path :: paths => do
      let s ← get
      let number ← lift
        (pathNumber s.qdiscs (.ofNat 32 (path.index <<< topShift)) path.path)
      setNumber ref number
      selSetClassNumbers topShift refs paths

def setNumberRefs (n : Nat) : List Class → Select Unit
  | [] =>
      if n ≥ 2 ^ cspIndexBits then
        throw (.error ("number of class selection paths exceeds " ++
          toString (2 ^ cspIndexBits)))
      else pure ()
  | ref :: refs => do
      setNumber ref (.ofNat 32 (n + 1))
      setNumberRefs (n + 1) refs

def addSeqTcindex : List SelQdisc → Select Unit
  | [] => pure ()
  | q :: qdiscs => do
      if q.qdisc.gred then addSeqTcindex qdiscs
      else do
        selAddTcindex q.qdisc 0 cspIndexBits
        addSeqTcindex qdiscs

def addSeqElements (n : Nat) : List ClassInfo → Select Unit
  | [] => pure ()
  | elem :: path => do
      let s ← get
      if elem.parent.gred then addSeqElements n path
      else do
        let (q, cl) ← lift (findClass s.qdiscs elem)
        match s.filters q.qdisc.address with
        | [] => throw (.error "filter element without filter")
        | f :: filters => do
            modify fun s => s.setFilters q.qdisc.address
              (f.addElement cl.info n :: filters)
            addSeqElements n path

def addSeqPaths (n : Nat) : List SelPath → Select Unit
  | [] => pure ()
  | path :: paths => do
      addSeqElements (n + 1) path.path
      addSeqPaths (n + 1) paths

def selAddSeqFilters : Select Unit := do
  let s ← get
  addSeqTcindex s.qdiscs
  addSeqPaths 0 s.paths

def endSelectionPaths (inner : InnerQdisc) : Select Unit := do
  let s ← get
  if s.paths = [] then pure ()
  else do
    let maxEquals := s.paths.foldl (fun max path =>
      if path.equals > max then path.equals else max) 0
    let topBits := countBits maxEquals 0
    let (qdiscs, bits) := selectionBits s.qdiscs inner
    modify fun s => { s with qdiscs }
    if topBits + bits ≤ cspIndexBits then do
      selAddHierFilters qdiscs
      selSetClassNumbers bits s.refs s.paths
    else do
      setNumberRefs 0 s.refs
      selAddSeqFilters

def registerClasses (inner : InnerQdisc) : List OuterClass → Select Unit
  | [] => pure ()
  | cl :: classes => do
      match cl.selPath with
      | none => registerClasses inner classes
      | some list => do
          let s ← get
          if s.numbers cl.address ≠ undefU32 then
            throw (.error
              "can't use class selection path and class number on same class")
          else do
            registerSelectionPath cl.address list inner
            registerClasses inner classes

def classSelectionPaths (classes : List OuterClass) (inner : InnerQdisc) :
    Select Unit := do
  modify fun s => { s with paths := [], refs := [], qdiscs := [] }
  registerClasses inner classes
  endSelectionPaths inner

end Tcng.Csp
