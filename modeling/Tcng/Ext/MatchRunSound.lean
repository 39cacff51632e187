import Tcng.Ext.RuleText
import Tcng.IfExt.RuleActions

/-! What an external program decides with the lines of a block is what the
expressions decide, one after the other. -/

namespace Tcng.Ext

open Scan IfExt ShortCircuit ShortCircuit.Eval

/-! ## Reading rules -/

section

variable {numbers : ObjectNumbers} {groups : List TccextOffset}
  {s : TccextBlock} {conforms : BitVec 32 → Bool} {raw : Nat → BitVec 8}
  {protocol : BitVec 16} {packet : Packet} {rules : List Rule}
  {parsed : List TccextRule}

variable {number : Nat → Option Nat} {entered : Register Action}

end

end Tcng.Ext
