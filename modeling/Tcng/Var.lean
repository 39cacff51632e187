import Mathlib.Logic.Function.Basic
import Tcng.Data

/-! Variables and their scopes (`var.c`). -/

namespace Tcng

/-- What a variable holds, up to associative arrays; `δ` is all other data. -/
inductive VarData (δ : Type)
  | none
  | plain (d : δ)
  | assoc (entries : List (String × VarData δ))

namespace VarData

variable {δ : Type}

def isAssoc : VarData δ → Bool
  | assoc _ => true
  | _ => false

/-- The entries `var_follow` looks at; anything but an array is replaced. -/
def entries : VarData δ → List (String × VarData δ)
  | assoc entries => entries
  | _ => []

/-- The first entry of that name is changed, or a new one comes last. -/
def setEntry (name : String) (d : VarData δ) :
    List (String × VarData δ) → List (String × VarData δ)
  | [] => [(name, d)]
  | (name', d') :: rest =>
      if name' = name then (name, d) :: rest
      else (name', d') :: setEntry name d rest

/-- What `f` makes of the place at the end of `path`. -/
def modifyAt (f : VarData δ → VarData δ) :
    List String → VarData δ → VarData δ
  | [], d => f d
  | name :: path, d =>
      .assoc (setEntry name
        (modifyAt f path ((d.entries.lookup name).getD .none)) d.entries)

end VarData

inductive VarUsage
  | vuNew
  | vuUnused
  | vuUsed
  | vuForward
  deriving DecidableEq, Repr

/-- The address of a `VAR`; none is used twice. -/
abbrev VarId := Nat

/-- A scope is known by how many scopes are outside. A variable stays where it
is in the list of its name, so `next_with_name` is the rest of this list. -/
structure Var (δ : Type) where
  data : VarData δ
  dataRef : Option Nat
  usage : VarUsage
  hash : String
  scope : Nat
  nextWithName : List VarId

/-- `struct var_access`: `path` leads from `clone` to `data`, and is empty
without `entry`. -/
structure VarAccess (δ : Type) where
  var : VarId
  clone : VarData δ
  path : List String

/-- `vars` has what is not freed, `scopes` the variables of each open scope,
innermost scope first; with `saved`, `saved_scope` is the innermost scope and
`curr_scope` the one outside it. `dataRefs` is what `data_ref` points to. -/
structure Vars (δ : Type) where
  vars : VarId → Option (Var δ)
  nextVar : VarId
  hash : String → List VarId
  scopes : List (List VarId)
  saved : Bool
  dataRefs : List (VarData δ)
  currentAccess : Option (VarAccess δ)
  accesses : List (VarAccess δ)

namespace Vars

variable {δ : Type}

def initial : Vars δ := ⟨fun _ => none, 0, fun _ => [], [], false, [], none, []⟩

/-- Following a pointer that leads nowhere. -/
def invalidPointer : Error := .error "Segmentation fault"

def deref (s : Vars δ) (id : VarId) : Except Error (Var δ) :=
  match s.vars id with
  | some var => .ok var
  | none => .error invalidPointer

def update (s : Vars δ) (id : VarId) (var : Var δ) : Vars δ :=
  { s with vars := Function.update s.vars id (some var) }

/-- The position of `curr_scope`. -/
def currIndex (s : Vars δ) : Nat := if s.saved then 1 else 0

/-- `curr_scope` -/
def currScope (s : Vars δ) : Nat := s.scopes.length - 1 - s.currIndex

/-- The assertion in `var_new`. -/
def assertNewInScope (name : String) (s : Vars δ) : Except Error Unit :=
  match s.hash name with
  | [] => .ok ()
  | first :: _ => do
      let var ← s.deref first
      if var.scope = s.currScope then
        .error (.assertion "!hash->vars || hash->vars->scope != curr_scope")
      else .ok ()

def varNew (name : String) (s : Vars δ) : Except Error (VarId × Vars δ) :=
  if s.scopes.length ≤ s.currIndex then .error invalidPointer
  else do
    assertNewInScope name s
    let id := s.nextVar
    let var := ⟨.none, none, .vuNew, name, s.currScope, s.hash name⟩
    let scopes := s.scopes.modify s.currIndex (· ++ [id])
    let hash := Function.update s.hash name (id :: s.hash name)
    return (id, { s.update id var with nextVar := id + 1, scopes, hash })

def varFind (name : String) (s : Vars δ) : Except Error (VarId × Vars δ) :=
  match s.hash name with
  | [] => varNew name s
  | id :: _ => do
      let _ ← s.deref id
      return (id, s)

def varBeginScope (s : Vars δ) : Except Error (Vars δ) :=
  if s.saved then .error (.assertion "!saved_scope")
  else .ok { s with scopes := [] :: s.scopes }

/-- One round of the loop in `var_end_scope`. -/
def endVar (id : VarId) (s : Vars δ) : Except Error (Vars δ) := do
  let var ← s.deref id
  if var.scope ≠ s.currScope then
    .error (.assertion "this->scope == curr_scope")
  else if var.usage = .vuForward then
    .error (.error ("unresolved forward-declared variable " ++ var.hash))
  else .ok { s with
    vars := Function.update s.vars id none
    hash := Function.update s.hash var.hash var.nextWithName }

def endVars : List VarId → Vars δ → Except Error (Vars δ)
  | [], s => .ok s
  | id :: ids, s => do
      let s ← endVar id s
      endVars ids s

def varEndScope (s : Vars δ) : Except Error (Vars δ) :=
  if s.saved then .error (.assertion "!saved_scope")
  else match s.scopes with
    | [] => .error invalidPointer
    | ids :: outer => do
        let s ← endVars ids s
        return { s with scopes := outer }

def varOuterScope (s : Vars δ) : Except Error (Vars δ) :=
  if s.saved then .error (.assertion "!saved_scope")
  else if s.scopes.length ≤ 1 then .error (.assertion "curr_scope")
  else .ok { s with saved := true }

def varInnerScope (s : Vars δ) : Except Error (Vars δ) :=
  if s.saved then .ok { s with saved := false }
  else .error (.assertion "saved_scope")

def varBeginAccess (id : VarId) (s : Vars δ) : Except Error (Vars δ) := do
  let var ← s.deref id
  return { s with currentAccess := some ⟨id, var.data, []⟩ }

/-- A missing entry is made. -/
def varFollow (name : String) (s : Vars δ) : Except Error (Vars δ) :=
  match s.currentAccess with
  | none => .error invalidPointer
  | some access =>
      let path := access.path ++ [name]
      let access := { access with
        clone := access.clone.modifyAt id path
        path }
      .ok { s with currentAccess := some access }

def varPushAccess (s : Vars δ) : Except Error (Vars δ) :=
  match s.currentAccess with
  | none => .error invalidPointer
  | some access => .ok { s with accesses := access :: s.accesses }

def varPopAccess (s : Vars δ) : Except Error (Vars δ) :=
  match s.accesses with
  | [] => .error invalidPointer
  | access :: accesses =>
      .ok { s with currentAccess := some access, accesses }

/-- The variable of the access, or a new one in `curr_scope`. -/
def varInScope (id : VarId) (var : Var δ) (s : Vars δ) :
    Except Error (VarId × Vars δ) :=
  if var.scope ≠ s.currScope then varNew var.hash s else .ok (id, s)

/-- `*current_access.data = data` and what follows it. -/
def storeData (data : VarData δ) (access : VarAccess δ) (id : VarId)
    (usage : VarUsage) (s : Vars δ) : Except Error (Vars δ) := do
  let var ← s.deref id
  let clone := access.clone.modifyAt (fun _ => data) access.path
  let s := s.update id { var with data := clone, usage }
  return { s with currentAccess := some { access with var := id, clone } }

def varSet (data : VarData δ) (s : Vars δ) : Except Error (Vars δ) := do
  match s.currentAccess with
  | none => .error invalidPointer
  | some access => do
      let var ← s.deref access.var
      if var.usage = .vuForward then
        if access.path ≠ [] then
          .error (.error ("cannot access structure entries in " ++
            "forward-declared variable"))
        else
          match var.dataRef with
          | none => .error invalidPointer
          | some ref =>
              let s := { s with dataRefs := s.dataRefs.set ref data }
              storeData data access access.var .vuUsed s
      else if access.path = [] ∨ var.data.isAssoc = false then do
        let (id, s) ← varInScope access.var var s
        storeData data access id .vuUnused s
      else storeData data access access.var var.usage s

def varForward (s : Vars δ) : Except Error (Vars δ) := do
  match s.currentAccess with
  | none => .error invalidPointer
  | some access => do
      let var ← s.deref access.var
      if var.usage ≠ .vuNew ∧ var.usage ≠ .vuForward ∧
          var.scope = s.currScope then
        .error (.error ("variable " ++ var.hash ++ " redefined"))
      else if access.path ≠ [] then
        .error (.error "cannot forward-declare structure entries")
      else do
        let (id, s) ← varInScope access.var var s
        let var ← s.deref id
        let s := { s with currentAccess := some { access with var := id } }
        match var.dataRef with
        | some _ => return s.update id { var with usage := .vuForward }
        | none =>
            let dataRefs := s.dataRefs ++ [.none]
            let var := { var with
              dataRef := some s.dataRefs.length
              usage := .vuForward }
            return { s.update id var with dataRefs }

end Vars

/-! ## Runs -/

/-- `find` and `begin_access` together are one reference to a variable. -/
inductive VarCall (δ : Type)
  | beginScope
  | endScope
  | outerScope
  | innerScope
  | beginAccess (name : String)
  | follow (name : String)
  | pushAccess
  | popAccess
  | set (data : VarData δ)
  | forward

def VarCall.perform {δ : Type} : VarCall δ → Vars δ → Except Error (Vars δ)
  | beginScope, s => s.varBeginScope
  | endScope, s => s.varEndScope
  | outerScope, s => s.varOuterScope
  | innerScope, s => s.varInnerScope
  | beginAccess name, s => do
      let (id, s) ← s.varFind name
      s.varBeginAccess id
  | follow name, s => s.varFollow name
  | pushAccess, s => s.varPushAccess
  | popAccess, s => s.varPopAccess
  | set data, s => s.varSet data
  | forward, s => s.varForward

def Vars.run {δ : Type} : List (VarCall δ) → Vars δ → Except Error (Vars δ)
  | [], s => .ok s
  | call :: calls, s => do
      let s ← call.perform s
      run calls s

end Tcng
