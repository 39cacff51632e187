import Tcng.Ext.Tccext
import Tcng.IfExt.Bits
import Tcng.Lib.Scan

/-! Rules of a block: their text (`if_ext.c`), how it is read (`tccext.c`),
and how their matches look at a packet (`match.c`). -/

namespace Tcng.IfExt

open Scan

/-- `fputc` of a nibble -/
def hexDigit (nibble : Nat) : Char :=
  if 10 ≤ nibble then Char.ofNat (nibble + 'A'.toNat - 10)
  else Char.ofNat (nibble + '0'.toNat)

def Match.print (m : Match) : List Char :=
  ' ' :: printNat m.offsetGroup ++ ':' :: printNat m.offset ++
    ':' :: printNat m.length ++ "=0x".toList ++ m.digits.map hexDigit

/-- What `dump_action` prints after `match`. -/
def ruleText (bits : List BitMatch) (action : Nat) : List Char :=
  (collectBits (sortBits bits)).flatMap Match.print ++
    " action ".toList ++ printNat action

end Tcng.IfExt

namespace Tcng.Ext

open Scan

/-- What a pointer to an offset group leads to: `NULL`, the group of meta
fields, or a group that has a line. -/
inductive TccextOffset
  | raw
  | metaField
  | group (number : Nat) (base fieldGroup : TccextOffset)
      (offset length shiftLeft : Nat)
  deriving DecidableEq, Repr

def TccextOffset.number : TccextOffset → Nat
  | raw => 0
  | metaField => metaFieldRoot
  | group number .. => number

structure TccextField where
  offsetGroup : TccextOffset
  offset : Nat
  length : Nat
  deriving DecidableEq, Repr

structure TccextMatch where
  field : TccextField
  data : List (BitVec 8)
  deriving DecidableEq, Repr

/-- The address of the action comes from the list of the block. -/
structure TccextRule where
  tests : List TccextMatch
  actions : Nat
  deriving DecidableEq, Repr

/-! ## Reading -/

def findGroup (groups : List TccextOffset) (number : Nat) :
    Except Error TccextOffset :=
  if number = 0 then .ok .raw
  else if number = metaFieldRoot then .ok .metaField
  else
    match groups.find? (·.number = number) with
    | some group => .ok group
    | none =>
        .error (.error ("offset group " ++ toString number ++ " not found"))

/-- `%i:%i:%i` -/
def scanField (text : List Char) :
    Option ((Nat × Nat × Nat) × List Char) := do
  let (base, text) ← scanInt text
  let text ← scanChar ':' text
  let (offset, text) ← scanInt text
  let text ← scanChar ':' text
  let (length, text) ← scanInt text
  return ((base, offset, length), text)

def parseField (groups : List TccextOffset) (text : List Char) :
    Except Error (TccextField × List Char) :=
  match scanField text with
  | none =>
      .error (.error ("invalid field expression \"" ++ String.ofList text ++
        "\""))
  | some ((base, offset, length), rest) => do
      let offsetGroup ← findGroup groups base
      .ok (⟨offsetGroup, offset, length⟩, rest)

/-- The loop over pairs of digits. -/
def storePairs : List Nat → List (BitVec 8)
  | high :: low :: nibbles =>
      (.ofNat 8 (high <<< 4) ||| .ofNat 8 low) :: storePairs nibbles
  | _ => []

def storeNibbles (nibbles : List Nat) : List (BitVec 8) :=
  if nibbles.length % 2 = 1 then
    match nibbles with
    | first :: nibbles => .ofNat 8 first :: storePairs nibbles
    | [] => []
  else storePairs nibbles

/-- `p` points into `data`, which is filled with zeros up to a whole word. -/
def storeData (length : Nat) (nibbles : List Nat) :
    Except Error (List (BitVec 8)) :=
  let bytes := (length + 7) / 8
  let stored := storeNibbles nibbles
  if bytes < stored.length then .error (.assertion "match->data")
  else
    .ok (List.replicate (bytes - stored.length) 0 ++ stored ++
      List.replicate ((bytes + 3) / 4 * 4 - bytes) 0)

/-- The part of `parse_match` after `=0x`: the match, and the text from `walk`
on. -/
def parseData (field : TccextField) (text : List Char) :
    Except Error (TccextMatch × List Char) := do
  let text := text.dropWhile (· = '0') -- avoid overflow on 0x000000...
  let nibbles := text.takeWhile isXdigit
  let data ← storeData field.length (nibbles.map hexValue)
  .ok (⟨field, data⟩, text.dropWhile isXdigit)

def parseMatch (groups : List TccextOffset) (line : List Char) :
    Except Error (TccextMatch × List Char) := do
  let (field, text) ← parseField groups line
  match text with
  | '=' :: '0' :: 'x' :: text => parseData field text
  | _ => .error (.error ("invalid match \"" ++ String.ofList line ++ "\""))

/-- The loop over the matches of a line. -/
def parseMatches (groups : List TccextOffset) :
    Nat → List Char → Except Error (List TccextMatch × List Char)
  | 0, _ => .error .outOfFuel
  | fuel + 1, line =>
      if line.head?.any Char.isDigit then do
        let (m, line) ← parseMatch groups line
        let (tests, line) ← parseMatches groups fuel (line.drop 1)
        .ok (m :: tests, line)
      else .ok ([], line)

/-- ` action %i` -/
def scanAction (line : List Char) : Option Nat := do
  let line ← "action".toList.foldlM (fun line c => scanChar c line)
    (line.dropWhile isSpace)
  let (actions, _) ← scanInt line
  return actions

def parseRule (groups : List TccextOffset) (actions : List ListedAction)
    (line : List Char) : Except Error TccextRule := do
  let (tests, line) ← parseMatches groups (line.length + 1) line
  match scanAction line with
  | none =>
      .error (.error ("invalid action \"" ++ String.ofList line ++ "\""))
  | some action =>
      match findAction actions (.ofNat 32 action) with
      | some address => .ok ⟨tests, address⟩
      | none => .error (.error ("no actions " ++ toString action))

/-! ## Looking at a packet -/

/-- The loop of `extract_bits`; `bits` are still missing. -/
def extractLoop (data : Nat → BitVec 8) (next : Nat) (res : BitVec 32)
    (bits : Int) : BitVec 32 × Int :=
  if 0 < bits then
    extractLoop data (next + 1) (res <<< 8 ||| (data next).setWidth 32)
      (bits - 8)
  else (res, bits)
termination_by bits.toNat

def extractBits (data : Nat → BitVec 8) (start bits : Nat) :
    Except Error (BitVec 32) :=
  if 32 < bits + start % 8 then .error (.assertion "abort")
  else
    let first := (data (start / 8)).setWidth 32 &&&
      ((1 <<< (8 - start % 8)) - 1)
    let (res, bits) :=
      extractLoop data (start / 8 + 1) first (bits - (8 - start % 8 : Nat))
    .ok (if bits ≠ 0 then res >>> (-bits).toNat else res)

/-- A position in the packet, where the sum fits an `int`. -/
def position (base : BitVec 32) (offset : Nat) : Except Error Nat :=
  let start := base.toInt + offset
  if start < 0 ∨ 2 ^ 31 ≤ start then .error (.assertion "start")
  else .ok start.toNat

def offset (raw : Nat → BitVec 8) : TccextOffset → Except Error (BitVec 32)
  | .raw => .ok 0
  | .metaField =>
      .error (.error "\"match\" can't handle meta fields in offset")
  | .group _ base fieldGroup fieldOffset length shiftLeft => do
      let base ← offset raw base
      let fieldBase ← offset raw fieldGroup
      let start ← position fieldBase fieldOffset
      let increment ← extractBits raw start length
      .ok (base + increment <<< shiftLeft)

def matchData (m : TccextMatch) : Except Error (BitVec 32) :=
  extractBits (fun i => m.data.getD i 0) ((8 - m.field.length % 8) % 8)
    m.field.length

/-- `protocol` in host byte order -/
def match1 (m : TccextMatch) (raw : Nat → BitVec 8) (protocol : BitVec 16) :
    Except Error Bool :=
  match m.field.offsetGroup with
  | .metaField =>
      if m.field.offset ≠ metaProtocolOffset.toNat * 8 then
        .error (.error "invalid offset for meta_protocol")
      else if m.field.length ≠ metaProtocolSize.toNat * 8 then
        .error (.error "invalid size for meta_protocol access")
      else do
        let value ← matchData m
        .ok (protocol.setWidth 32 == value)
  | offsetGroup => do
      let base ← offset raw offsetGroup
      let start ← position base m.field.offset
      let bits ← extractBits raw start m.field.length
      let value ← matchData m
      .ok (bits == value)

end Tcng.Ext
