import Mathlib.Data.List.Forall2
import Tcng.Data

/-! Scopes of field definitions (`field.c`). -/

namespace Tcng

/-- What is kept of a `FIELD` in an outer scope. -/
structure OuterField where
  condition : Data
  access : Data
  level : Int
  deriving DecidableEq, Repr

/-- `FIELD` with the chain of its `outer` copies, innermost first. -/
structure FieldDefinition where
  name : String
  condition : Data
  access : Data
  level : Int
  outer : List OuterField
  deriving DecidableEq, Repr

/-- `fields`, youngest first, and `level`. -/
structure Fields where
  fields : List FieldDefinition
  level : Int
  deriving DecidableEq, Repr

namespace Fields

def initial : Fields := ⟨[], 0⟩

def fieldBeginScope (s : Fields) : Fields := { s with level := s.level + 1 }

/-- The body of the loop in `field_end_scope`; `none` is a field that is
freed. -/
def endScopeField (level : Int) (field : FieldDefinition) :
    Option FieldDefinition :=
  if field.level = level then
    match field.outer with
    | outer :: rest => some { field with
        condition := outer.condition
        access := outer.access
        level := outer.level
        outer := rest }
    | [] => none
  else some field

def fieldEndScope (s : Fields) : Fields :=
  { fields := s.fields.filterMap (endScopeField s.level)
    level := s.level - 1 }

def fieldFind (s : Fields) (name : String) : Option FieldDefinition :=
  s.fields.find? (·.name = name)

def fieldSet (name : String) (access condition : Data) (s : Fields) :
    Except Error Fields :=
  if (s.fieldFind name).isSome then
    .error (.error ("field \"" ++ name ++ "\" already exists"))
  else .ok { s with fields := ⟨name, condition, access, s.level, []⟩ :: s.fields }

/-- The position of a `FIELD` in the list. -/
def position (s : Fields) (field : Field) : Nat := s.fields.length - 1 - field

/-- `is_known`, where `horizon` counts the fields from `field->next` on. -/
def isKnown (s : Fields) (horizon : Nat) : Data → Except Error Unit
  | .field f =>
      if f < horizon then .ok ()
      else .error (.error ("field \"" ++
        (s.fields[s.position f]?.elim "" FieldDefinition.name) ++
        "\" defined after redefined field"))
  | .op _ _ a b c => do
      isKnown s horizon a
      isKnown s horizon b
      isKnown s horizon c
  | _ => .ok ()

def redefined (level : Int) (access condition : Data)
    (field : FieldDefinition) : FieldDefinition :=
  if field.level = level then
    { field with access := access, condition := condition }
  else
    { field with
      outer := ⟨field.condition, field.access, field.level⟩ :: field.outer
      level := level
      access := access
      condition := condition }

/-- `field` points to one of the fields. -/
def fieldRedefine (field : Field) (access condition : Data) (s : Fields) :
    Except Error Fields := do
  if s.fields.length ≤ field then .error (.assertion "field")
  else do
    isKnown s field access
    isKnown s field condition
    let fields := s.fields.modify (s.position field)
      (redefined s.level access condition)
    return { s with fields }

end Fields

/-! ## Runs -/

inductive FieldCall
  | fieldBeginScope
  | fieldEndScope
  | fieldSet (name : String) (access condition : Data)
  | fieldRedefine (field : Field) (access condition : Data)
  deriving DecidableEq, Repr

def FieldCall.perform : FieldCall → Fields → Except Error Fields
  | fieldBeginScope, s => .ok s.fieldBeginScope
  | fieldEndScope, s => .ok s.fieldEndScope
  | fieldSet name access condition, s => s.fieldSet name access condition
  | fieldRedefine field access condition, s =>
      s.fieldRedefine field access condition

namespace Fields

def run : List FieldCall → Fields → Except Error Fields
  | [], s => .ok s
  | call :: calls, s => do
      let s ← call.perform s
      run calls s

theorem run_append (calls calls' : List FieldCall) (s : Fields) :
    run (calls ++ calls') s = (do
      let s ← run calls s
      run calls' s) := by
  induction calls generalizing s with
  | nil => rfl
  | cons call calls ih =>
      simp only [List.cons_append, run]
      cases call.perform s with
      | error => rfl
      | ok s' => exact ih s'

end Fields

/-- Every scope that is begun is ended. -/
inductive Balanced : List FieldCall → Prop
  | nil : Balanced []
  | set {calls} (name access condition) (h : Balanced calls) :
      Balanced (.fieldSet name access condition :: calls)
  | redefine {calls} (field access condition) (h : Balanced calls) :
      Balanced (.fieldRedefine field access condition :: calls)
  | scope {inner calls} (hinner : Balanced inner) (h : Balanced calls) :
      Balanced (.fieldBeginScope :: inner ++ .fieldEndScope :: calls)

/-- What a name stands for. -/
def Fields.definition (s : Fields) (name : String) : Option (Data × Data) :=
  (s.fieldFind name).map fun field => (field.access, field.condition)

/-! ## Levels -/

namespace Fields

/-- Levels decrease along the chain of copies, from at most `level` on. -/
def LevelsBelow : Int → List Int → Prop
  | _, [] => True
  | level, inner :: outer => inner ≤ level ∧ LevelsBelow (inner - 1) outer

/-- The levels at which a field was defined and redefined, innermost first. -/
def levels (field : FieldDefinition) : List Int :=
  field.level :: field.outer.map OuterField.level

/-- Nothing is defined at a level that is not open. -/
def WellLeveled (s : Fields) : Prop :=
  ∀ field ∈ s.fields, LevelsBelow s.level (levels field)

theorem LevelsBelow.mono {level level' : Int} {l : List Int}
    (h : LevelsBelow level l) (hle : level ≤ level') : LevelsBelow level' l := by
  cases l with
  | nil => trivial
  | cons => exact ⟨Int.le_trans h.1 hle, h.2⟩

private theorem endScopeField_levels {level : Int}
    {field field' : FieldDefinition}
    (h : LevelsBelow level (levels field))
    (hfield : endScopeField level field = some field') :
    LevelsBelow (level - 1) (levels field') := by
  rw [endScopeField] at hfield
  split at hfield
  · rename_i heq
    split at hfield
    · rename_i outer rest houter
      cases hfield
      rw [levels, houter, heq] at h
      exact h.2
    · cases hfield
  · rename_i hne
    cases hfield
    exact ⟨by have := h.1; omega, h.2⟩

private theorem redefined_levels {level : Int} {access condition : Data}
    {field : FieldDefinition} (h : LevelsBelow level (levels field)) :
    LevelsBelow level (levels (redefined level access condition field)) := by
  rw [redefined]
  split
  · exact h
  · rename_i hne
    have hlt : field.level ≤ level - 1 := by
      have hle : field.level ≤ level := h.1
      omega
    exact ⟨Int.le_refl level, hlt, h.2⟩

private theorem WellLeveled.beginScope {s : Fields} (h : s.WellLeveled) :
    s.fieldBeginScope.WellLeveled := by
  intro field hmem
  exact (h field hmem).mono (by simp [fieldBeginScope])

private theorem WellLeveled.endScope {s : Fields} (h : s.WellLeveled) :
    s.fieldEndScope.WellLeveled := by
  intro field' hmem
  obtain ⟨field, hfield, hend⟩ := List.mem_filterMap.mp hmem
  exact endScopeField_levels (h field hfield) hend

/-- What a successful `field_set` does. -/
theorem fieldSet_ok {name : String} {access condition : Data} {s s' : Fields}
    (h : s.fieldSet name access condition = .ok s') :
    s' = { s with
      fields := ⟨name, condition, access, s.level, []⟩ :: s.fields } := by
  rw [fieldSet] at h
  split at h
  · cases h
  · exact (Except.ok.inj h).symm

/-- What a successful `field_redefine` does. -/
theorem fieldRedefine_ok {field : Field} {access condition : Data}
    {s s' : Fields} (h : s.fieldRedefine field access condition = .ok s') :
    field < s.fields.length ∧ s' = { s with
      fields := s.fields.modify (s.position field)
        (redefined s.level access condition) } := by
  rw [fieldRedefine] at h
  split at h
  · cases h
  · rename_i hlt
    obtain ⟨_, _, h⟩ := bind_eq_ok.mp h
    obtain ⟨_, _, h⟩ := bind_eq_ok.mp h
    exact ⟨Nat.not_le.mp hlt, (Except.ok.inj h).symm⟩

private theorem WellLeveled.set {s s' : Fields} (h : s.WellLeveled)
    {name : String} {access condition : Data}
    (hset : s.fieldSet name access condition = .ok s') : s'.WellLeveled := by
  cases fieldSet_ok hset
  intro field hmem
  rcases List.mem_cons.mp hmem with rfl | hmem
  · exact ⟨Int.le_refl _, trivial⟩
  · exact h field hmem

private theorem WellLeveled.redefine {s s' : Fields} (h : s.WellLeveled)
    {field : Field} {access condition : Data}
    (hredefine : s.fieldRedefine field access condition = .ok s') :
    s'.WellLeveled := by
  obtain ⟨-, rfl⟩ := fieldRedefine_ok hredefine
  intro field' hmem
  obtain ⟨i, hi, rfl⟩ := List.getElem_of_mem hmem
  rw [List.getElem_modify]
  rw [List.length_modify] at hi
  have hold := h _ (List.getElem_mem hi)
  split
  · exact redefined_levels hold
  · exact hold

theorem perform_wellLeveled {call : FieldCall} {s s' : Fields}
    (h : s.WellLeveled) (hcall : call.perform s = .ok s') :
    s'.WellLeveled := by
  cases call with
  | fieldBeginScope =>
      cases hcall
      exact h.beginScope
  | fieldEndScope =>
      cases hcall
      exact h.endScope
  | fieldSet name access condition => exact h.set hcall
  | fieldRedefine field access condition => exact h.redefine hcall

theorem run_wellLeveled {calls : List FieldCall} {s s' : Fields}
    (h : s.WellLeveled) (hrun : run calls s = .ok s') : s'.WellLeveled := by
  induction calls generalizing s with
  | nil =>
      cases hrun
      exact h
  | cons call calls ih =>
      obtain ⟨s₁, hcall, hrest⟩ := bind_eq_ok.mp hrun
      exact ih (perform_wellLeveled h hcall) hrest

/-! ## Restoring -/

/-- How a field of the enclosing scope looks in the scope at `level`. -/
inductive Shadows (level : Int) (field : FieldDefinition) :
    FieldDefinition → Prop
  | same : Shadows level field field
  | changed (access condition : Data) :
      Shadows level field { field with
        access := access
        condition := condition
        level := level
        outer := ⟨field.condition, field.access, field.level⟩ :: field.outer }

/-- `s'` has the fields of `s`, redefined or not, behind the ones made in the
scope. -/
structure Inside (s s' : Fields) : Prop where
  level : s'.level = s.level + 1
  fields : ∃ inner outer, s'.fields = inner ++ outer ∧
    (∀ field ∈ inner, field.level = s.level + 1 ∧ field.outer = []) ∧
    List.Forall₂ (Shadows (s.level + 1)) s.fields outer

theorem Inside.beginScope (s : Fields) : Inside s s.fieldBeginScope := by
  refine ⟨rfl, [], s.fields, rfl, nofun, ?_⟩
  exact List.forall₂_same.mpr fun field _ => .same

private theorem WellLeveled.level_le {s : Fields} (h : s.WellLeveled)
    {field : FieldDefinition} (hmem : field ∈ s.fields) :
    field.level ≤ s.level := (h field hmem).1

private theorem endScopeField_shadows {level : Int}
    {field field' : FieldDefinition} (h : Shadows level field field')
    (hlt : field.level < level) :
    endScopeField level field' = some field := by
  cases h with
  | same => rw [endScopeField, if_neg (by omega)]
  | changed access condition => rw [endScopeField, if_pos rfl]

private theorem filterMap_shadows {level : Int}
    {fields outer : List FieldDefinition}
    (h : List.Forall₂ (Shadows level) fields outer)
    (hlt : ∀ field ∈ fields, field.level < level) :
    outer.filterMap (endScopeField level) = fields := by
  induction h with
  | nil => rfl
  | cons hshadows hrest ih =>
      rw [List.filterMap_cons, endScopeField_shadows hshadows
        (hlt _ List.mem_cons_self)]
      simp only [List.cons.injEq, true_and]
      exact ih fun field hmem => hlt field (List.mem_cons_of_mem _ hmem)

/-- The end of a scope brings back the fields of the enclosing one. -/
theorem Inside.endScope {s s' : Fields} (h : Inside s s')
    (hlevels : s.WellLeveled) : s'.fieldEndScope = s := by
  obtain ⟨hlevel, inner, outer, hfields, hinner, houter⟩ := h
  have hgone : inner.filterMap (endScopeField (s.level + 1)) = [] := by
    apply List.filterMap_eq_nil_iff.mpr
    intro field hmem
    obtain ⟨heq, hnone⟩ := hinner field hmem
    rw [endScopeField, if_pos heq, hnone]
  have hback := filterMap_shadows houter fun field hmem =>
    Int.lt_add_one_of_le (hlevels.level_le hmem)
  obtain ⟨fields, level⟩ := s
  simp only [fieldEndScope, hfields, hlevel, List.filterMap_append, hgone,
    hback, List.nil_append, mk.injEq, true_and]
  omega

theorem Inside.set {s s' s'' : Fields} (h : Inside s s') {name : String}
    {access condition : Data}
    (hset : s'.fieldSet name access condition = .ok s'') : Inside s s'' := by
  cases fieldSet_ok hset
  obtain ⟨hlevel, inner, outer, hfields, hinner, houter⟩ := h
  refine ⟨hlevel, ⟨name, condition, access, s'.level, []⟩ :: inner, outer, ?_,
    ?_, houter⟩
  · simp only [hfields, List.cons_append]
  · intro field hmem
    rcases List.mem_cons.mp hmem with rfl | hmem
    · exact ⟨hlevel, rfl⟩
    · exact hinner field hmem

private theorem Shadows.redefine {level : Int} {field field' : FieldDefinition}
    (h : Shadows level field field') (hlt : field.level < level)
    (access condition : Data) :
    Shadows level field (redefined level access condition field') := by
  cases h with
  | same =>
      rw [redefined, if_neg (by omega)]
      exact .changed access condition
  | changed =>
      rw [redefined, if_pos rfl]
      exact .changed access condition

private theorem modify_append (f : FieldDefinition → FieldDefinition)
    (inner outer : List FieldDefinition) (i : Nat) :
    ∃ j k, (inner ++ outer).modify i f = inner.modify j f ++ outer.modify k f := by
  induction inner generalizing i with
  | nil => exact ⟨0, i, rfl⟩
  | cons field inner ih =>
      cases i with
      | zero =>
          refine ⟨0, outer.length, ?_⟩
          rw [List.modify_eq_self (Nat.le_refl _)]
          rfl
      | succ i =>
          obtain ⟨j, k, heq⟩ := ih i
          exact ⟨j + 1, k, by simp [heq]⟩

private theorem forall₂_modify {level : Int} {access condition : Data}
    {fields outer : List FieldDefinition}
    (h : List.Forall₂ (Shadows level) fields outer)
    (hlt : ∀ field ∈ fields, field.level < level) (i : Nat) :
    List.Forall₂ (Shadows level) fields
      (outer.modify i (redefined level access condition)) := by
  induction h generalizing i with
  | nil => simp
  | cons hshadows hrest ih =>
      cases i with
      | zero =>
          exact .cons (hshadows.redefine (hlt _ List.mem_cons_self) _ _) hrest
      | succ i =>
          have htail := ih (fun field hmem =>
            hlt field (List.mem_cons_of_mem _ hmem)) i
          exact .cons hshadows htail

theorem Inside.redefine {s s' s'' : Fields} (h : Inside s s')
    (hlevels : s.WellLeveled) {field : Field} {access condition : Data}
    (hredefine : s'.fieldRedefine field access condition = .ok s'') :
    Inside s s'' := by
  obtain ⟨-, rfl⟩ := fieldRedefine_ok hredefine
  obtain ⟨hlevel, inner, outer, hfields, hinner, houter⟩ := h
  obtain ⟨j, k, hmodify⟩ := modify_append
    (redefined s'.level access condition) inner outer (s'.position field)
  refine ⟨hlevel, _, _, by rw [hfields, hmodify], ?_, ?_⟩
  · intro field' hmem
    obtain ⟨i, hi, rfl⟩ := List.getElem_of_mem hmem
    rw [List.length_modify] at hi
    have hold := hinner _ (List.getElem_mem hi)
    rw [List.getElem_modify]
    split
    · rw [redefined, if_pos (hold.1.trans hlevel.symm)]
      exact hold
    · exact hold
  · rw [hlevel]
    exact forall₂_modify houter (fun field' hmem =>
      Int.lt_add_one_of_le (hlevels.level_le hmem)) k

/-- Calls in a scope keep what the enclosing one had. -/
theorem Inside.run {calls : List FieldCall} (hcalls : Balanced calls)
    {s s' s'' : Fields} (hlevels : s.WellLeveled) (h : Inside s s')
    (hlevels' : s'.WellLeveled) (hrun : run calls s' = .ok s'') :
    Inside s s'' := by
  induction hcalls generalizing s s' s'' with
  | nil =>
      cases hrun
      exact h
  | set name access condition hcalls ih =>
      obtain ⟨s₁, hcall, hrest⟩ := bind_eq_ok.mp hrun
      exact ih hlevels (h.set hcall) (hlevels'.set hcall) hrest
  | redefine field access condition hcalls ih =>
      obtain ⟨s₁, hcall, hrest⟩ := bind_eq_ok.mp hrun
      exact ih hlevels (h.redefine hlevels hcall) (hlevels'.redefine hcall)
        hrest
  | @scope inner calls hinner hcalls ihinner ih =>
      rw [run_append] at hrun
      obtain ⟨s₁, hopen, hrest⟩ := bind_eq_ok.mp hrun
      obtain ⟨s₂, hbegin, hopen⟩ := bind_eq_ok.mp hopen
      obtain ⟨s₃, hend, hrest⟩ := bind_eq_ok.mp hrest
      cases hbegin
      cases hend
      have hinside := ihinner hlevels' (Inside.beginScope s')
        hlevels'.beginScope hopen
      rw [hinside.endScope hlevels'] at hrest
      exact ih hlevels h hlevels' hrest

end Fields

/-- After any calls, a scope leaves every name with the definition it had when
the scope was begun. -/
theorem fieldEndScope_restores {before calls : List FieldCall} {s s' : Fields}
    (hbefore : Fields.run before .initial = .ok s) (hcalls : Balanced calls)
    (hrun : Fields.run (.fieldBeginScope :: calls ++ [.fieldEndScope]) s =
      .ok s') (name : String) : s'.definition name = s.definition name := by
  have hinitial : Fields.initial.WellLeveled := nofun
  have hlevels := Fields.run_wellLeveled hinitial hbefore
  rw [Fields.run_append] at hrun
  obtain ⟨s₁, hopen, hrest⟩ := bind_eq_ok.mp hrun
  obtain ⟨s₂, hbegin, hopen⟩ := bind_eq_ok.mp hopen
  cases hbegin
  have hinside := Fields.Inside.run hcalls hlevels (.beginScope s)
    hlevels.beginScope hopen
  cases hrest
  rw [hinside.endScope hlevels]

/-- Two scopes redefine `foo`, the outer one also has a new field. -/
theorem fieldEndScope_restores_foo :
    ∃ s s', Fields.run [.fieldSet "raw" (.fieldRoot 0) .none,
        .fieldSet "foo" (.field 0) .none] .initial = .ok s ∧
      Fields.run [.fieldBeginScope, .fieldRedefine 1 (.unum 1) .none,
        .fieldSet "bar" (.field 1) .none, .fieldBeginScope,
        .fieldRedefine 1 (.unum 2) .none, .fieldEndScope, .fieldEndScope] s =
          .ok s' ∧
      s'.definition "foo" = s.definition "foo" := by
  have hbefore : Fields.run [.fieldSet "raw" (.fieldRoot 0) .none,
      .fieldSet "foo" (.field 0) .none] .initial =
        .ok ⟨[⟨"foo", .none, .field 0, 0, []⟩,
          ⟨"raw", .none, .fieldRoot 0, 0, []⟩], 0⟩ := by
    decide +kernel
  have hcalls : Balanced [.fieldRedefine 1 (.unum 1) .none,
      .fieldSet "bar" (.field 1) .none, .fieldBeginScope,
      .fieldRedefine 1 (.unum 2) .none, .fieldEndScope] :=
    .redefine _ _ _ (.set _ _ _ (.scope (.redefine _ _ _ .nil) .nil))
  refine ⟨_, ⟨[⟨"foo", .none, .field 0, 0, []⟩,
    ⟨"raw", .none, .fieldRoot 0, 0, []⟩], 0⟩, hbefore, ?_, ?_⟩
  · decide +kernel
  · exact fieldEndScope_restores hbefore hcalls (by decide +kernel) "foo"

end Tcng
