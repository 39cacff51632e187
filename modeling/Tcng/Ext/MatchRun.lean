import Tcng.Ext.ActionsRead
import Tcng.Ext.Match

/-! The lines of one block for an external program (`dump_if_ext_local` of
`if_ext.c`), and how a program goes through them with a packet (`match` of
`match.c`). -/

namespace Tcng.IfExt

open Scan

/-! ## Printing -/

inductive RuleLine
  | matched (text : List Char)
  | barrier
  deriving DecidableEq, Repr

/-- `%d` of a number that may be -1 -/
def printNumber : Option Nat → List Char
  | some n => printNat n
  | none => "-1".toList

/-- What `dump_action` prints after `match`. -/
def Rule.print (r : Rule) (number : Option Nat) : List Char :=
  r.tests.flatMap Match.print ++ " action ".toList ++ printNumber number

section

variable (numbers : ObjectNumbers) (getOffsetGroup : Data → Nat → Nat)
  (number : Nat → Option Nat)

end

end Tcng.IfExt

namespace Tcng.Ext

open IfExt

/-! ## Reading -/

section

variable (s : TccextBlock) (conforms : BitVec 32 → Bool) (raw : Nat → BitVec 8)
  (protocol : BitVec 16)

end

end Tcng.Ext
