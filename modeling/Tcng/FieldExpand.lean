import Tcng.Data
import Tcng.Shared.U128

/-! Expansion of fields (`field.c`). -/

namespace Tcng

/-- What a pointer to a `FIELD` leads to. -/
structure FieldTable where
  name : Field → String
  access : Field → Data
  condition : Field → Data

namespace Data

def isField : Data → Bool
  | field _ => true
  | _ => false

def isAccess : Data → Bool
  | op .access .. => true
  | _ => false

/-- `op_binary` on `op_plus` -/
def plusEval (a b : Data) : Except Error Data :=
  if integerNumber a && b = .unum 0 then .ok a
  else if integerNumber b && a = .unum 0 then .ok b
  else if !(integerNumber a && integerNumber b) then
    .error (.typeError2 .plus a.type b.type)
  else if a.isOp || b.isOp then
    if a.type = b.type ∨ b.type = .unum then
      .ok (.op .plus a.type a b .none)
    else if a.type = .unum then .ok (.op .plus b.type a b .none)
    else .error (.typeError2 .plus a.type b.type)
  else if a.type = .ipv6 ∨ b.type = .ipv6 then do
    let x ← a.toIpv6
    let y ← b.toIpv6
    return .ipv6 (x.add y)
  else if a.type = .ipv4 ∨ b.type = .ipv4 then
    .ok (.ipv4 (a.unumValue + b.unumValue))
  else .ok (.unum (a.unumValue + b.unumValue))

end Data

/-! ## Fields are replaced by what they access -/

/-- `do_field_expand`; the loop is taken again with what it has put in place of
the field. -/
def doFieldExpand (table : FieldTable) : Nat → Data → Except Error Data
  | 0, _ => .error .outOfFuel
  | fuel + 1, d =>
      if d.type = .none then .ok d
      else match d with
      | .op .access t (.field f) b c =>
          let access := table.access f
          if (b.type ≠ .none ∨ c.unumValue ≠ 0) ∧ access.type ≠ .none ∧
              !access.isAccess then
            .error (.error ("access not allowed for field \"" ++
              table.name f ++ "\""))
          else if (table.condition f).type = .none then
            doFieldExpand table fuel (.op .access t access b c)
          else do
            let condition ← doFieldExpand table fuel (table.condition f)
            doFieldExpand table fuel (.op .access t
              (.op .precond2 access.type access condition .none) b c)
      | .op dsc t a b c => do
          let a ← doFieldExpand table fuel a
          let b ← doFieldExpand table fuel b
          let c ← doFieldExpand table fuel c
          return .op dsc t a b c
      | d => .ok d

/-! ## Preconditions -/

/-- Conditions are put in front of an expression one after the other. -/
def guardWith (conditions : List Data) (d : Data) : Data :=
  conditions.foldl (fun d condition => .logicalAnd condition d) d

/-- `root->op` is `NULL` after constants were folded. -/
def noOperator : Error := .error "Segmentation fault"

/-- `op_binary(&op_logical_and,condition,*root)`, which must be an operator. -/
def putCondition (root condition : Data) : Except Error Unit := do
  let d ← andOrEval .logicalAnd condition root
  if d.isOp then .ok () else .error noOperator

/-- `bubble_precond`. What it puts in front of `*root` is returned as a list;
`root` is what `*root` was before. If `d` and `root` are the same, `d` is moved
to the second operand of the last condition put there. -/
def bubblePrecond (same adjustRoot : Bool) (root : Data) :
    Data → Except Error (Data × List Data)
  | .op dsc t a b c =>
      if dsc = .precond then do
        let (_, conditions) ← bubblePrecond false false (.unum 1) a
        return (guardWith conditions (.unum 1), [])
      else if dsc = .precond2 then do
        putCondition root b
        let root := .logicalAnd b root
        let (b, more) ← bubblePrecond false true root b
        match same, more.getLast? with
        | true, some last =>
            -- what `d` points to now is not the access
            return ((b :: more.dropLast).getLastD b, [last])
        | _, _ => do
            let (a, conditions) ←
              bubblePrecond false adjustRoot (guardWith more root) a
            return (a, b :: more ++ conditions)
      else if adjustRoot ∧ (dsc = .logicalOr ∨ dsc = .logicalNot) then do
        let (a', before) ← bubblePrecond true true a a
        let (b', before') ← bubblePrecond true true b b
        return (.op dsc t (guardWith before a') (guardWith before' b') c, [])
      else do
        let (b, conditions) ← bubblePrecond false adjustRoot root b
        let root := guardWith conditions root
        let (a, conditions') ← bubblePrecond false adjustRoot root a
        let root := guardWith conditions' root
        let (c, conditions'') ← bubblePrecond false adjustRoot root c
        return (.op dsc t a b c, conditions ++ conditions' ++ conditions'')
  | d => .ok (d, [])

/-! ## Accesses of accesses -/

/-- `if (!d->op->c.u.unum) d->op->c.u.unum = 8` -/
def defaultSize : Data → Data
  | .unum n => .unum (if n = 0 then 8 else n)
  | c => c

/-- The offset of an access with offset `b` to an access with offset `b'`. -/
def composeOffset (b b' : Data) : Except Error Data :=
  if b.type = .none then .ok b'
  else if b'.type ≠ .none then b.plusEval b'
  else .ok b

/-- The loop in `reduce_access`, for the access `access(a,b,c)`. -/
def composeAccess (t : DataType) (b c : Data) : Data → Except Error Data
  | .op .access t' a b' c' =>
      if t' = .fieldRoot ∧ b.type = .none then
        .ok (.op .access t (.op .access t' a b' c') b (defaultSize c))
      else if b.type = .none ∧ c.unumValue = 0 then composeAccess t' b' c' a
      else do
        let b ← composeOffset b b'
        composeAccess t b (defaultSize (if c.unumValue = 0 then c' else c)) a
  | a =>
      if a.type ≠ .fieldRoot ∧ b.type = .none ∧ c.unumValue = 0 then .ok a
      else .ok (.op .access t a b (defaultSize c))

/-- `reduce_access` -/
def reduceAccess : Nat → Data → Except Error Data
  | 0, _ => .error .outOfFuel
  | fuel + 1, d => do
      let d ← match d with
        | .op .access t a b c => composeAccess t b c a
        | d => .ok d
      match d with
      | .op dsc t a b c => do
          let b := if dsc = .access ∧ b.type = .none then .unum 0 else b
          let a ← reduceAccess fuel a
          let b ← reduceAccess fuel b
          let c ← reduceAccess fuel c
          return .op dsc t a b c
      | d => .ok d

/-- `field_expand` -/
def fieldExpand (table : FieldTable) (fuel : Nat) (d : Data) :
    Except Error Data := do
  let d ← doFieldExpand table fuel d
  let (d', conditions) ← bubblePrecond true true d d
  reduceAccess fuel (guardWith conditions d')

end Tcng
