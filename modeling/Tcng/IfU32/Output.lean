import Tcng.IfU32.Keys
import Tcng.Iflib.ActionDb
import Tcng.Lib.Program

/-! What the `u32` back-end prints, and the variables it keeps
(`if_u32.c`). -/

namespace Tcng.IfU32

open Program

abbrev Handle := BitVec 32

/-- `TC_U32_HTID` -/
def Handle.htid (h : Handle) : Handle := h &&& 0xFFF00000

/-- `TC_U32_KEY` -/
def Handle.key (h : Handle) : Handle := h &&& 0xFFFFF

/-- `TC_U32_ROOT` -/
def u32Root : Handle := 0xFFF00000

/-- `MATCH`, printed as `match u<bits> <value> <mask> at <offset>` -/
structure Match where
  bits : Nat
  value : BitVec 32
  mask : BitVec 32
  offset : Int
  deriving DecidableEq, Repr

/-- `RULE`, without its place on the stack. -/
structure Rule where
  handle : Handle
  tests : List Match
  plus : BitVec 32
  offset : BitVec 32
  mask : BitVec 32
  shift : Int
  link : Handle
  deriving DecidableEq, Repr

/-- `DECISION` of a policer. -/
inductive Profile
  | pdInvalid | pdOk | pdDrop | pdContinue
  deriving DecidableEq, Repr

/-- A policer made from a committed rate, a peak rate and a burst to add. -/
structure Police where
  tC : Option Bucket
  tP : Option Bucket
  burst : Option Bucket
  inProfile : Profile
  outProfile : Profile
  deriving DecidableEq, Repr

/-- What follows the priority of a filter. -/
inductive Selector
  | divisor (handle : Handle)
  | u32 (handle : Option Handle)
  | fw (value : BitVec 32)
  | tcindex (value : BitVec 32)
  deriving DecidableEq, Repr

/-- A line `tc filter add ..`; `offsetAt` is offset, mask and shift. -/
structure Line where
  protocol : BitVec 16
  prioOffset : Nat
  selector : Selector
  tests : List Match := []
  plus : Option (BitVec 32) := none
  offsetAt : Option (BitVec 32 × BitVec 32 × Int) := none
  link : Option Handle := none
  classid : Option Class := none
  police : Option Police := none
  deriving DecidableEq, Repr

/-- `is_meta` -/
inductive IsMeta
  | undecided | no | yes
  deriving DecidableEq, Repr

/-- An entry of `map_mem`. -/
inductive MapValue
  | police (p : Bucket)
  | class (c : Class)
  deriving DecidableEq, Repr

/-- What was done, with the variables it depends on as they were before. -/
inductive Step
  | newHandle (handle : Handle)
  | link (handle cachedHandle : Handle)
  | action (isMeta : IsMeta) (out : List Char)
  deriving DecidableEq, Repr

/-- The static variables, the lines printed and the one being printed, and
the history of steps, which nothing depends on. -/
structure State where
  prioOffset : Nat
  isMeta : IsMeta
  lastMeta : IsMeta
  protocol : Option (BitVec 16)
  handle : Handle
  cached : Bool
  cachedProtocol : BitVec 16
  cachedHandle : Handle
  keys : List Key
  currHandle : Handle
  metaOffset : BitVec 32
  metaValue : BitVec 32
  ruleStack : List Rule
  actions : ActionDb
  mapMem : Nat → Option MapValue
  policers : List Police
  line : Option Line
  output : List Line
  steps : List Step

abbrev Emit := Program State Error

def step (t : Step) : Emit Unit :=
  modify fun s => { s with steps := s.steps ++ [t] }

/-- `ETH_P_ALL` -/
def ethPAll : BitVec 16 := 3

def State.protocolId (s : State) : BitVec 16 := s.protocol.getD ethPAll

/-! Lines. -/

/-- `__tc_filter_add2`, up to the selector. -/
def tcFilterAdd (protocol : BitVec 16) (selector : Selector) : Emit Unit :=
  modify fun s =>
    { s with line := some { protocol, prioOffset := s.prioOffset, selector } }

def tcMore (f : Line → Line) : Emit Unit :=
  modify fun s => { s with line := s.line.map f }

def tcNl : Emit Unit :=
  modify fun s => { s with line := none, output := s.output ++ s.line.toList }

/-! Handles and hashes. -/

def newHandle : Emit Handle := do
  let s ← get
  step (.newHandle s.handle)
  let handle := s.handle + 0x100000
  modify fun s => { s with handle }
  pure handle

def syncMeta : Emit Unit :=
  modify fun s =>
    let isMeta := if s.isMeta = .undecided then .no else s.isMeta
    { s with
      isMeta
      lastMeta := isMeta
      prioOffset :=
        if s.lastMeta ≠ .undecided ∧ s.lastMeta ≠ isMeta then s.prioOffset + 1
        else s.prioOffset }

def invalidCombination : Error :=
  .error "invalid combination of meta and non-meta fields"

def cachedHash : Emit Unit := do
  let s ← get
  if s.isMeta = .yes then throw invalidCombination
  else if s.cached then do
    syncMeta
    modify fun s => { s with cached := false }
    tcFilterAdd s.cachedProtocol (.divisor s.cachedHandle)
    tcNl
  else pure ()

def nextHash : Emit Unit :=
  modify fun s =>
    { s with
      cachedProtocol := s.protocolId
      cachedHandle := s.handle + 0x100000
      cached := true }

/-! Rules. -/

def beginMatch (handle : Handle) : Emit Unit :=
  modify fun s =>
    { s with currHandle := handle, keys := [], isMeta := .undecided }

def metaNfmarkOffset : BitVec 32 := 1024
def metaTcIndexOffset : BitVec 32 := 1056

/-- `dump_meta`, at the beginning of a line. -/
def dumpMeta : Emit Unit := do
  let s ← get
  if s.metaOffset = metaNfmarkOffset then
    tcFilterAdd s.protocolId (.fw s.metaValue)
  else if s.metaOffset = metaTcIndexOffset then
    tcFilterAdd s.protocolId (.tcindex s.metaValue)
  else throw (.assertion "abort")

def setMeta (offset value : BitVec 32) : Emit Bool := do
  let s ← get
  if s.isMeta = .no ∨ s.ruleStack ≠ [] then throw invalidCombination
  else if s.isMeta = .yes then
    if s.metaOffset ≠ offset then
      throw (.error "invalid combination of meta fields")
    else pure (decide (value = s.metaValue))
  else do
    modify fun s => { s with isMeta := .yes }
    if offset = metaNfmarkOffset ∧ value = 0 then
      throw (.error "cannot test meta_nfmark == 0")
    else do
      modify fun s => { s with metaOffset := offset, metaValue := value }
      pure true

def dumpRule (rule : Rule) (myHandle : Handle) : Emit Unit := do
  let s ← get
  tcFilterAdd s.protocolId
    (.u32 (if rule.handle.htid = u32Root then none else some myHandle))
  tcMore fun line =>
    { line with
      tests := rule.tests
      plus := if rule.plus ≠ 0 then some rule.plus else none
      offsetAt :=
        if rule.mask ≠ 0 then some (rule.offset, rule.mask, rule.shift)
        else none }
  if rule.link ≠ 0 then do
    tcMore fun line => { line with link := some s.handle.htid }
    tcNl
  else pure ()

/-- The rules below the top one lead to it through new tables. -/
def dumpStack : List Rule → Emit Unit
  | [] => pure ()
  | rule :: prev => do
      dumpStack prev
      let s ← get
      let myHandle :=
        if prev = [] then rule.handle else s.handle.htid ||| rule.handle.key
      if rule.link ≠ 0 then do
        let handle ← newHandle
        tcFilterAdd s.cachedProtocol (.divisor handle)
        tcNl
      else pure ()
      dumpRule rule myHandle

def popRule : Emit Unit := do
  let s ← get
  match s.ruleStack with
  | [] => throw (.assertion "rule_stack")
  | _ :: prev => modify fun s => { s with ruleStack := prev }

def dumpMatchAgain : Emit Unit := do
  let s ← get
  if s.isMeta = .yes then dumpMeta
  else if s.ruleStack = [] then throw (.assertion "rule_stack")
  else dumpStack s.ruleStack

def Key.toMatch (k : Key) : Match :=
  let shift := 32 - k.bits - (k.origOffset - k.offset).toNat * 8
  ⟨k.bits, k.value >>> shift, k.mask >>> shift, k.origOffset.toInt⟩

/-- `dump_match`; without keys, a match which always holds is needed. -/
def dumpMatch : Emit Unit := do
  syncMeta
  let s ← get
  if s.isMeta = .yes then dumpMeta
  else do
    let tests :=
      if s.keys = [] then [⟨32, 0, 0, 0⟩] else s.keys.map Key.toMatch
    let rule : Rule := ⟨s.currHandle, tests, 0, 0, 0, 0, 0⟩
    modify fun s => { s with ruleStack := rule :: s.ruleStack }
    dumpRule rule s.currHandle

/-- Changes to the rule on top of the stack. -/
def changeRule (f : Rule → Rule) : Emit Unit :=
  modify fun s => { s with ruleStack := s.ruleStack.modifyHead f }

/-- `__dump_link` -/
def dumpLinkRule : Emit Handle := do
  let s ← get
  step (.link s.handle s.cachedHandle)
  let next ← newHandle
  changeRule fun rule => { rule with link := next }
  tcMore fun line => { line with link := some next.htid }
  tcNl
  nextHash
  pure next

end Tcng.IfU32
