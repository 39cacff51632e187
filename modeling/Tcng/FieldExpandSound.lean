import Tcng.FieldMeaning

/-! Expansion of fields keeps the truth of an expression. -/

namespace Tcng

open Filter

variable {table : FieldTable} {known : Field → Prop}
  {fields : Field → FieldMeaning} {role : FieldRole} {a b c d e : Data}
  {dsc : OpDsc} {t : DataType} {f : Field} {fuel : Nat}

/-! ## The meaning of fields -/

theorem OpDsc.computes_cases (h : dsc.computes = true) :
    dsc ≠ .access ∧ dsc ≠ .precond ∧ dsc ≠ .precond2 ∧ dsc ≠ .logicalAnd ∧
      dsc ≠ .logicalOr ∧ dsc ≠ .logicalNot := by
  cases dsc <;> simp [OpDsc.computes, OpDsc.relational, OpDsc.arithmetic] at h ⊢

theorem Data.meaning_operator (haccess : dsc ≠ .access)
    (hprecond : dsc ≠ .precond2) :
    (Data.op dsc t a b c).meaning fields =
      .operator dsc t (a.meaning fields) (b.meaning fields)
        (c.meaning fields) := by
  cases dsc <;> first | contradiction | rfl

/-- Operands count by their meaning only. -/
theorem Data.meaning_congr {a' b' c' : Data}
    (ha : a'.meaning fields = a.meaning fields)
    (hb : b'.meaning fields = b.meaning fields)
    (hc : c'.meaning fields = c.meaning fields) :
    (Data.op dsc t a' b' c').meaning fields =
      (Data.op dsc t a b c).meaning fields := by
  simp only [Data.meaning, ha, hb, hc]

/-- Fields that are not known do not matter. -/
theorem FieldExpr.meaning_eq {preconditions : Prop}
    {fields' : Field → FieldMeaning}
    (h : FieldExpr known preconditions role d)
    (hfields : ∀ f, known f → fields f = fields' f) :
    d.meaning fields = d.meaning fields' := by
  induction h with
  | test hd h ih => exact ih
  | and ha hb iha ihb | or ha hb iha ihb =>
      simp only [Data.meaning, iha, ihb]
  | not ha iha => simp only [Data.meaning, iha]
  | none | unum | ipv4 | ipv6 | fieldRoot => rfl
  | op hdsc ht ha hb hc iha ihb ihc =>
      obtain ⟨haccess, -, hprecond, -⟩ := OpDsc.computes_cases hdsc
      simp only [Data.meaning_operator haccess hprecond, iha, ihb, ihc]
  | access n ht ha hb iha ihb | inner n ht ha hb iha ihb =>
      simp only [Data.meaning, iha, ihb]
  | field hf => exact hfields _ hf
  | precond2 h ht ha hop hb iha ihb => simp only [Data.meaning, iha, ihb]

namespace FieldTable

variable {older : Field → Field → Prop}

private theorem meaning_definition_eq (h : table.WellDefined older)
    {fields' : Field → FieldMeaning}
    (hfields : ∀ g, older g f → fields g = fields' g) :
    (table.definition f).meaning fields =
      (table.definition f).meaning fields' := by
  unfold definition
  split
  · exact (h.access f).meaning_eq hfields
  · rename_i hcondition
    rcases h.condition f with hnone | hformula
    · exact absurd (by rw [hnone]; rfl) hcondition
    · simp only [Data.meaning, (h.access f).meaning_eq hfields,
        hformula.meaning_eq hfields]

/-- A field means what its definition means. -/
theorem meaning_eq (h : table.WellDefined older) (f : Field) :
    table.meaning h.acyclic f =
      (table.definition f).meaning (table.meaning h.acyclic) := by
  have hunfold := h.acyclic.fix_eq
    (fun f known => (table.definition f).meaning fun g =>
      open Classical in if h : older g f then known g h else .leaf .none) f
  refine hunfold.trans (meaning_definition_eq h fun g hg => ?_)
  simp only [dif_pos hg]
  rfl

end FieldTable

/-! ## Replacing fields -/

theorem bind_ok {α β : Type} {x : Except Error α}
    {f : α → Except Error β} {a : α} (h : x = .ok a) : x >>= f = f a := by
  subst h
  rfl

private theorem doFieldExpand_field (ht : t ≠ .none) :
    doFieldExpand table (fuel + 1) (.op .access t (.field f) b c) =
      if (b.type ≠ .none ∨ c.unumValue ≠ 0) ∧ (table.access f).type ≠ .none ∧
          !(table.access f).isAccess then
        .error (.error ("access not allowed for field \"" ++ table.name f ++
          "\""))
      else if (table.condition f).type = .none then
        doFieldExpand table fuel (.op .access t (table.access f) b c)
      else (do
        let condition ← doFieldExpand table fuel (table.condition f)
        doFieldExpand table fuel (.op .access t
          (.op .precond2 (table.access f).type (table.access f) condition
            .none) b c)) := by
  exact if_neg ht

private theorem doFieldExpand_op (ht : t ≠ .none)
    (hfield : dsc = .access → a.isField = false) :
    doFieldExpand table (fuel + 1) (.op dsc t a b c) = (do
      let a ← doFieldExpand table fuel a
      let b ← doFieldExpand table fuel b
      let c ← doFieldExpand table fuel c
      return .op dsc t a b c) := by
  rw [doFieldExpand, if_neg (show (Data.op dsc t a b c).type ≠ .none from ht)]
  rintro f hdsc rfl
  cases hfield hdsc

/-- Replacing fields keeps the meaning, whenever it ends. -/
theorem meaning_doFieldExpand
    (hfields : ∀ f, fields f = (table.definition f).meaning fields)
    (h : doFieldExpand table fuel d = .ok e) :
    e.meaning fields = d.meaning fields := by
  induction fuel generalizing d e with
  | zero => cases h
  | succ fuel ih =>
      by_cases hnone : d.type = .none
      · simp only [doFieldExpand, hnone, if_true] at h
        cases h
        rfl
      cases d with
      | op dsc t a b c =>
          change t ≠ .none at hnone
          by_cases hfield : dsc = .access → a.isField = false
          · rw [doFieldExpand_op hnone hfield] at h
            obtain ⟨a', ha, h⟩ := bind_eq_ok.mp h
            obtain ⟨b', hb, h⟩ := bind_eq_ok.mp h
            obtain ⟨c', hc, h⟩ := bind_eq_ok.mp h
            cases h
            exact Data.meaning_congr (ih ha) (ih hb) (ih hc)
          · simp only [Classical.not_imp, Bool.not_eq_false] at hfield
            obtain ⟨rfl, hfield⟩ := hfield
            cases a with
            | field f =>
                rw [doFieldExpand_field hnone] at h
                split at h
                · cases h
                split at h
                · rename_i hcondition
                  rw [ih h]
                  refine Data.meaning_congr ?_ rfl rfl
                  rw [Data.meaning, hfields, FieldTable.definition,
                    if_pos hcondition]
                · rename_i hcondition
                  obtain ⟨condition, hexpand, h⟩ := bind_eq_ok.mp h
                  rw [ih h]
                  refine Data.meaning_congr ?_ rfl rfl
                  rw [Data.meaning, hfields, FieldTable.definition,
                    if_neg hcondition]
                  exact Data.meaning_congr rfl (ih hexpand) rfl
            | _ => cases hfield
      | _ =>
          simp only [doFieldExpand, hnone, if_false] at h
          cases h
          rfl

/-! ## Replacing fields ends -/

/-- With enough fuel. -/
def Expands (table : FieldTable) (d e : Data) : Prop :=
  ∀ᶠ fuel in atTop, doFieldExpand table fuel d = .ok e

theorem eventually_succ {P : Nat → Prop}
    (h : ∀ᶠ fuel in atTop, P (fuel + 1)) : ∀ᶠ fuel in atTop, P fuel := by
  rw [← map_add_atTop_eq_nat 1, eventually_map]
  exact h

namespace Expands

theorem leaf (hop : d.isOp = false) : Expands table d d := by
  refine eventually_succ (.of_forall fun fuel => ?_)
  cases d with
  | op => cases hop
  | _ => simp [doFieldExpand]

theorem op {a' b' c' : Data} (ht : t ≠ .none)
    (hfield : dsc = .access → a.isField = false) (ha : Expands table a a')
    (hb : Expands table b b') (hc : Expands table c c') :
    Expands table (.op dsc t a b c) (.op dsc t a' b' c') := by
  apply eventually_succ
  filter_upwards [ha, hb, hc] with fuel ha hb hc
  rw [doFieldExpand_op ht hfield, bind_ok ha, bind_ok hb, bind_ok hc]
  rfl

/-- A field that is defined by an access may be accessed. -/
private theorem notAllowed (haccess : (table.access f).isAccess = true) :
    ¬((b.type ≠ .none ∨ c.unumValue ≠ 0) ∧ (table.access f).type ≠ .none ∧
      !(table.access f).isAccess) := by
  simp [haccess]

theorem field (ht : t ≠ .none)
    (haccess : (table.access f).isAccess = true)
    (hcondition : (table.condition f).type = .none)
    (h : Expands table (.op .access t (table.access f) b c) e) :
    Expands table (.op .access t (.field f) b c) e := by
  apply eventually_succ
  filter_upwards [h] with fuel h
  rw [doFieldExpand_field ht, if_neg (notAllowed haccess), if_pos hcondition, h]

theorem fieldIf {condition : Data} (ht : t ≠ .none)
    (haccess : (table.access f).isAccess = true)
    (hcondition : (table.condition f).type ≠ .none)
    (hexpand : Expands table (table.condition f) condition)
    (h : Expands table (.op .access t (.op .precond2 (table.access f).type
      (table.access f) condition .none) b c) e) :
    Expands table (.op .access t (.field f) b c) e := by
  apply eventually_succ
  filter_upwards [hexpand, h] with fuel hexpand h
  rw [doFieldExpand_field ht, if_neg (notAllowed haccess), if_neg hcondition,
    bind_ok hexpand, h]

end Expands

private theorem numeric_ne_none (ht : t = .unum ∨ t = .ipv4 ∨ t = .ipv6) :
    t ≠ .none := by
  rcases ht with rfl | rfl | rfl <;> decide

/-- Without fields there is nothing to replace. -/
theorem FieldExpr.expands_self {preconditions : Prop}
    (h : FieldExpr (fun _ => False) preconditions role d) :
    d.isField = false ∧ Expands table d d := by
  induction h with
  | test hd h ih => exact ih
  | and ha hb iha ihb | or ha hb iha ihb =>
      exact ⟨rfl, .op (by decide) nofun iha.2 ihb.2 (.leaf rfl)⟩
  | not ha iha =>
      exact ⟨rfl, .op (by decide) nofun iha.2 (.leaf rfl) (.leaf rfl)⟩
  | none | unum | ipv4 | ipv6 | fieldRoot => exact ⟨rfl, .leaf rfl⟩
  | op hdsc ht ha hb hc iha ihb ihc =>
      exact ⟨rfl, .op (numeric_ne_none ht) (fun _ => iha.1) iha.2 ihb.2 ihc.2⟩
  | access n ht ha hb iha ihb | inner n ht ha hb iha ihb =>
      exact ⟨rfl, .op (numeric_ne_none ht) (fun _ => iha.1) iha.2 ihb.2
        (.leaf rfl)⟩
  | field hf => exact hf.elim
  | precond2 h ht ha hop hb iha ihb =>
      exact ⟨rfl, .op (numeric_ne_none ht) nofun iha.2 ihb.2 (.leaf rfl)⟩

/-- What is left after all fields are replaced. -/
abbrev ExpandedExpr : FieldRole → Data → Prop :=
  FieldExpr (fun _ => False) True

/-- An access of `d` becomes one of `e`. -/
def BaseExpands (table : FieldTable) (d e : Data) : Prop :=
  ∀ {t : DataType} {b b' : Data} {n : BitVec 32}, t ≠ .none →
    Expands table b b' →
      Expands table (.op .access t d b (.unum n)) (.op .access t e b' (.unum n))

theorem Expands.base (hfield : d.isField = false) (h : Expands table d e) :
    BaseExpands table d e :=
  fun ht hb => .op ht (fun _ => hfield) h hb (.leaf rfl)

/-- What is known of an expression once its fields can be replaced. -/
def ExpandsAs (table : FieldTable) : FieldRole → Data → Data → Prop
  | .base, d, e => BaseExpands table d e ∧ (d.isAccess = true →
      Expands table d e ∧ e.isAccess = true ∧ e.type = d.type)
  | _, d, e => Expands table d e ∧ e.type = d.type

theorem FieldExpr.expands (h : FieldExpr known False role d)
    (hknown : ∀ f, known f →
      ∃ e, ExpandedExpr .base e ∧ BaseExpands table (.field f) e) :
    ∃ e, ExpandedExpr role e ∧ ExpandsAs table role d e := by
  induction h with
  | test hd h ih =>
      obtain ⟨e, he, hexpands, htype⟩ := ih
      refine ⟨e, .test ?_ he, hexpands, htype⟩
      rw [← hd, integerNumber, htype]
      rfl
  | and ha hb iha ihb =>
      obtain ⟨a', ha', hexpa, -⟩ := iha
      obtain ⟨b', hb', hexpb, -⟩ := ihb
      exact ⟨_, .and ha' hb', .op (by decide) nofun hexpa hexpb (.leaf rfl),
        rfl⟩
  | or ha hb iha ihb =>
      obtain ⟨a', ha', hexpa, -⟩ := iha
      obtain ⟨b', hb', hexpb, -⟩ := ihb
      exact ⟨_, .or ha' hb', .op (by decide) nofun hexpa hexpb (.leaf rfl),
        rfl⟩
  | not ha iha =>
      obtain ⟨a', ha', hexpa, -⟩ := iha
      exact ⟨_, .not ha', .op (by decide) nofun hexpa (.leaf rfl) (.leaf rfl),
        rfl⟩
  | none => exact ⟨_, .none, .leaf rfl, rfl⟩
  | unum n => exact ⟨_, .unum n, .leaf rfl, rfl⟩
  | ipv4 n => exact ⟨_, .ipv4 n, .leaf rfl, rfl⟩
  | ipv6 n => exact ⟨_, .ipv6 n, .leaf rfl, rfl⟩
  | op hdsc ht ha hb hc iha ihb ihc =>
      obtain ⟨a', ha', hexpa, -⟩ := iha
      obtain ⟨b', hb', hexpb, -⟩ := ihb
      obtain ⟨c', hc', hexpc, -⟩ := ihc
      have haccess := (OpDsc.computes_cases hdsc).1
      exact ⟨_, .op hdsc ht ha' hb' hc', .op (numeric_ne_none ht)
        (fun h => absurd h haccess) hexpa hexpb hexpc, rfl⟩
  | access n ht ha hb iha ihb =>
      obtain ⟨a', ha', hexpa, -⟩ := iha
      obtain ⟨b', hb', hexpb, -⟩ := ihb
      exact ⟨_, .access n ht ha' hb', hexpa (numeric_ne_none ht) hexpb, rfl⟩
  | field hf =>
      obtain ⟨e, he, hexpands⟩ := hknown _ hf
      exact ⟨e, he, hexpands, nofun⟩
  | fieldRoot root => exact ⟨_, .fieldRoot root, (Expands.leaf rfl).base rfl, nofun⟩
  | inner n ht ha hb iha ihb =>
      obtain ⟨a', ha', hexpa, -⟩ := iha
      obtain ⟨b', hb', hexpb, -⟩ := ihb
      have hexpands := hexpa (n := n) (numeric_ne_none ht) hexpb
      exact ⟨_, .inner n ht ha' hb', hexpands.base rfl,
        fun _ => ⟨hexpands, rfl, rfl⟩⟩
  | precond2 h => exact h.elim

private theorem Data.isField_of_isAccess (h : d.isAccess = true) :
    d.isField = false := by
  cases d with
  | op => rfl
  | _ => cases h

theorem FieldExpr.integerNumber {preconditions : Prop}
    (h : FieldExpr known preconditions .formula d) :
    integerNumber d = true := by
  cases h with
  | test hd h => exact hd
  | _ => rfl

private theorem FieldExpr.type_of_isAccess {preconditions : Prop}
    (h : FieldExpr known preconditions .base d) (hd : d.isAccess = true) :
    d.type = .unum ∨ d.type = .ipv4 ∨ d.type = .ipv6 := by
  cases h with
  | inner n ht => exact ht
  | precond2 h ht => cases hd
  | _ => cases hd

/-- All fields can be replaced. -/
theorem FieldTable.WellDefined.expands {older : Field → Field → Prop}
    (h : table.WellDefined older) (f : Field) :
    ∃ e, ExpandedExpr .base e ∧ BaseExpands table (.field f) e := by
  induction f using h.acyclic.induction with
  | _ f ih =>
      have hop := h.isAccess f
      obtain ⟨access, haccess, -, hexpands⟩ := (h.access f).expands ih
      obtain ⟨hexpands, hop', -⟩ := hexpands hop
      have htype := (h.access f).type_of_isAccess hop
      rcases h.condition f with hnone | hformula
      · refine ⟨access, haccess, fun ht hb => .field ht hop ?_ ?_⟩
        · rw [hnone]
          rfl
        · exact hexpands.base (Data.isField_of_isAccess hop) ht hb
      · obtain ⟨condition, hcondition, hexpandsc, hctype⟩ := hformula.expands ih
        refine ⟨.op .precond2 (table.access f).type access condition .none,
          .precond2 trivial htype haccess hop' hcondition,
          fun ht hb => .fieldIf ht hop ?_ hexpandsc ?_⟩
        · intro hnone
          have hnumber := hformula.integerNumber
          rw [Tcng.integerNumber, hnone] at hnumber
          cases hnumber
        · refine Expands.base rfl ?_ ht hb
          exact .op (numeric_ne_none htype) nofun hexpands
            hcondition.expands_self.2 (.leaf rfl)

/-! ## Conditions move up -/

/-- What is left after all conditions are in their places. -/
abbrev RawExpr : FieldRole → Data → Prop :=
  FieldExpr (fun _ => False) False

theorem integerNumber_guardWith (hd : integerNumber d = true)
    (conditions : List Data) : integerNumber (guardWith conditions d) = true := by
  induction conditions generalizing d with
  | nil => exact hd
  | cons condition conditions ih => exact ih rfl

theorem isOp_guardWith (hd : d.isOp = true) (conditions : List Data) :
    (guardWith conditions d).isOp = true := by
  induction conditions generalizing d with
  | nil => exact hd
  | cons condition conditions ih => exact ih rfl

theorem putCondition_ok {root condition : Data}
    (hroot : integerNumber root = true) (hop : root.isOp = true)
    (hcondition : integerNumber condition = true) :
    putCondition root condition = .ok () := by
  have hand := @andOrEval_op .logicalAnd condition root
    (by simp [Data.logical, hcondition]) (by simp [Data.logical, hroot])
    (.inr (.inl hop))
  rw [putCondition, bind_ok hand]
  rfl

namespace FieldMeaning

theorem Composes.of_nil {m : FieldMeaning} (hparts : m.composes)
    (hlinks : m.links = []) : m.Composes := by
  refine ⟨hparts, ?_, ?_⟩
  · rw [hlinks]
    exact ⟨_, rfl⟩
  · rw [hlinks]
    trivial

theorem composes_leaf (d : Data) : (leaf d).Composes :=
  .of_nil trivial rfl

end FieldMeaning

/-- The conditions hold. -/
def allTrue (fields : Field → FieldMeaning) (conditions : List Data)
    (packet : Packet) : Bool :=
  conditions.all fun condition => (condition.meaning fields).truth packet

@[simp] theorem allTrue_nil (packet : Packet) :
    allTrue fields [] packet = true := rfl

@[simp] theorem allTrue_cons (condition : Data) (conditions : List Data)
    (packet : Packet) : allTrue fields (condition :: conditions) packet =
      ((condition.meaning fields).truth packet &&
        allTrue fields conditions packet) := rfl

@[simp] theorem allTrue_append (conditions conditions' : List Data)
    (packet : Packet) : allTrue fields (conditions ++ conditions') packet =
      (allTrue fields conditions packet &&
        allTrue fields conditions' packet) :=
  List.all_append

section

variable {conditions : List Data}

theorem truth_guardWith (d : Data) (packet : Packet) :
    ((guardWith conditions d).meaning fields).truth packet =
      (allTrue fields conditions packet &&
        (d.meaning fields).truth packet) := by
  induction conditions generalizing d with
  | nil => rfl
  | cons condition conditions ih =>
      rw [guardWith, List.foldl_cons, ← guardWith, ih]
      simp only [Data.meaning, FieldMeaning.operator, allTrue_cons]
      rw [← Bool.and_assoc, Bool.and_comm (allTrue _ _ _)]

theorem composes_guardWith (hd : (d.meaning fields).Composes)
    (h : ∀ condition ∈ conditions, (condition.meaning fields).Composes) :
    ((guardWith conditions d).meaning fields).Composes := by
  induction conditions generalizing d with
  | nil => exact hd
  | cons condition conditions ih =>
      apply ih _ fun condition hin => h condition (List.mem_cons_of_mem _ hin)
      exact .of_nil ⟨h condition List.mem_cons_self, hd,
        FieldMeaning.composes_leaf _⟩ rfl

theorem rawExpr_guardWith (hd : RawExpr .formula d)
    (h : ∀ condition ∈ conditions, RawExpr .formula condition) :
    RawExpr .formula (guardWith conditions d) := by
  induction conditions generalizing d with
  | nil => exact hd
  | cons condition conditions ih =>
      apply ih (.and (h condition List.mem_cons_self) hd)
      exact fun condition hin => h condition (List.mem_cons_of_mem _ hin)

end

/-- A number is true if it is not zero, after all conditions. -/
theorem FieldExpr.truth_number {preconditions : Prop}
    (h : FieldExpr known preconditions .number d) :
    (d.meaning fields).truth = FieldMeaning.tested (d.meaning fields).raw
      (d.meaning fields).conditions := by
  cases h with
  | @op dsc _ _ _ _ hdsc =>
      cases dsc <;> first | rfl | exact absurd hdsc (by decide)
  | _ => rfl

/-- Conditions that have been moved, and what they leave behind. -/
structure CondsMoved (fields : Field → FieldMeaning) (role : FieldRole)
    (d d' : Data) (conditions : List Data) : Prop where
  expr : RawExpr role d'
  formulas : ∀ condition ∈ conditions, RawExpr .formula condition
  type : role ≠ .base → d'.type = d.type
  links : (d'.meaning fields).links = (d.meaning fields).links
  composes : (d.meaning fields).composes → (d'.meaning fields).composes ∧
    ∀ condition ∈ conditions, (condition.meaning fields).Composes
  number : role ≠ .formula →
    (d'.meaning fields).raw = (d.meaning fields).raw ∧
    (d'.meaning fields).root = (d.meaning fields).root ∧
    ∀ packet, (d'.meaning fields).conditions packet = true ∧
      (d.meaning fields).conditions packet = allTrue fields conditions packet
  truth : role ≠ .base → ∀ packet, (d.meaning fields).truth packet =
    (allTrue fields conditions packet && (d'.meaning fields).truth packet)

namespace CondsMoved

variable {conditions : List Data} {d' : Data}

theorem composes_all (h : CondsMoved fields role d d' conditions)
    (hd : (d.meaning fields).Composes) : (d'.meaning fields).Composes ∧
      ∀ condition ∈ conditions, (condition.meaning fields).Composes := by
  obtain ⟨hparts, hconditions⟩ := h.composes hd.parts
  refine ⟨⟨hparts, ?_, ?_⟩, hconditions⟩
  · rw [h.links]
    exact hd.sum
  · rw [h.links]
    exact hd.size

/-- What has no operands stays. -/
theorem refl (hd : RawExpr role d)
    (hconditions : ∀ packet, (d.meaning fields).conditions packet = true) :
    CondsMoved fields role d d [] where
  expr := hd
  formulas := nofun
  type := fun _ => rfl
  links := rfl
  composes := fun h => ⟨h, nofun⟩
  number := fun _ => ⟨rfl, rfl, fun packet => ⟨hconditions packet,
    hconditions packet⟩⟩
  truth := fun _ packet => by simp

/-- The truth of a number is told by its conditions and its value. -/
private theorem truth_of_number (hd : ExpandedExpr .number d)
    (hd' : RawExpr .number d')
    (hraw : (d'.meaning fields).raw = (d.meaning fields).raw)
    (hconditions : ∀ packet, (d'.meaning fields).conditions packet = true ∧
      (d.meaning fields).conditions packet =
        allTrue fields conditions packet) (packet : Packet) :
    (d.meaning fields).truth packet = (allTrue fields conditions packet &&
      (d'.meaning fields).truth packet) := by
  rw [hd.truth_number, hd'.truth_number, FieldMeaning.tested,
    FieldMeaning.tested, hraw, (hconditions packet).1, (hconditions packet).2,
    Bool.true_and]

/-- An operator of numbers. -/
theorem op {a' b' c' : Data} {ca cb cc : List Data}
    (hdsc : dsc.computes = true) (ht : t = .unum ∨ t = .ipv4 ∨ t = .ipv6)
    (hop : ExpandedExpr .number (.op dsc t a b c))
    (ha : CondsMoved fields .number a a' ca) (hb : CondsMoved fields .number b b' cb)
    (hc : CondsMoved fields .number c c' cc) :
    CondsMoved fields .number (.op dsc t a b c) (.op dsc t a' b' c')
      (cb ++ ca ++ cc) := by
  obtain ⟨haccess, -, hprecond, -⟩ := OpDsc.computes_cases hdsc
  have hexpr : RawExpr .number (.op dsc t a' b' c') :=
    .op hdsc ht ha.expr hb.expr hc.expr
  obtain ⟨hraw, -, hca⟩ := ha.number nofun
  obtain ⟨hrawb, -, hcb⟩ := hb.number nofun
  obtain ⟨hrawc, -, hcc⟩ := hc.number nofun
  have hnumber : ((Data.op dsc t a' b' c').meaning fields).raw =
        ((Data.op dsc t a b c).meaning fields).raw ∧
      ∀ packet, ((Data.op dsc t a' b' c').meaning fields).conditions packet =
          true ∧
        ((Data.op dsc t a b c).meaning fields).conditions packet =
          allTrue fields (cb ++ ca ++ cc) packet := by
    simp only [Data.meaning_operator haccess hprecond, FieldMeaning.operator,
      hraw, hrawb, hrawc, allTrue_append]
    refine ⟨trivial, fun packet => ?_⟩
    rw [(hca packet).1, (hcb packet).1, (hcc packet).1, (hca packet).2,
      (hcb packet).2, (hcc packet).2]
    exact ⟨rfl, by rw [Bool.and_comm (allTrue fields ca packet)]⟩
  refine ⟨hexpr, ?_, fun _ => rfl, ?_, ?_,
    fun _ => ⟨hnumber.1, ?_, hnumber.2⟩,
    fun _ => truth_of_number hop hexpr hnumber.1 hnumber.2⟩
  · simp only [List.mem_append]
    rintro condition ((h | h) | h)
    · exact hb.formulas _ h
    · exact ha.formulas _ h
    · exact hc.formulas _ h
  · rw [Data.meaning_operator haccess hprecond,
      Data.meaning_operator haccess hprecond]
    rfl
  · simp only [Data.meaning_operator haccess hprecond, FieldMeaning.operator,
      List.mem_append]
    rintro ⟨hpa, hpb, hpc⟩
    obtain ⟨hpa, hfa⟩ := ha.composes_all hpa
    obtain ⟨hpb, hfb⟩ := hb.composes_all hpb
    obtain ⟨hpc, hfc⟩ := hc.composes_all hpc
    refine ⟨⟨hpa, hpb, hpc⟩, ?_⟩
    rintro condition ((h | h) | h)
    · exact hfb _ h
    · exact hfa _ h
    · exact hfc _ h
  · rw [Data.meaning_operator haccess hprecond,
      Data.meaning_operator haccess hprecond]
    rfl

/-- An access, whether of a packet or of another access. -/
theorem access {a' b' : Data} {ca cb : List Data} {n : BitVec 32}
    (hrole : role ≠ .formula)
    (hop : role = .number → ExpandedExpr .number (.op .access t a b (.unum n)))
    (hexpr : RawExpr role (.op .access t a' b' (.unum n)))
    (ha : CondsMoved fields .base a a' ca)
    (hb : CondsMoved fields .number b b' cb) :
    CondsMoved fields role (.op .access t a b (.unum n))
      (.op .access t a' b' (.unum n)) (cb ++ ca) := by
  obtain ⟨-, hroot, hca⟩ := ha.number nofun
  obtain ⟨hrawb, -, hcb⟩ := hb.number nofun
  have hraw : ((Data.op .access t a' b' (.unum n)).meaning fields).raw =
      ((Data.op .access t a b (.unum n)).meaning fields).raw := by
    simp only [Data.meaning, FieldMeaning.access, hroot, hrawb, ha.links]
  have hconditions : ∀ packet,
      ((Data.op .access t a' b' (.unum n)).meaning fields).conditions packet =
          true ∧
        ((Data.op .access t a b (.unum n)).meaning fields).conditions packet =
          allTrue fields (cb ++ ca) packet := by
    intro packet
    simp only [Data.meaning, FieldMeaning.access, allTrue_append]
    rw [(hca packet).1, (hcb packet).1, (hca packet).2, (hcb packet).2]
    exact ⟨rfl, Bool.and_comm _ _⟩
  refine ⟨hexpr, ?_, fun _ => rfl, ?_, ?_, fun _ => ⟨hraw, hroot, hconditions⟩, ?_⟩
  · simp only [List.mem_append]
    rintro condition (h | h)
    · exact hb.formulas _ h
    · exact ha.formulas _ h
  · simp only [Data.meaning, FieldMeaning.access, hrawb, ha.links]
  · simp only [Data.meaning, FieldMeaning.access, List.mem_append]
    rintro ⟨hpa, hpb⟩
    obtain ⟨hpa, hfa⟩ := ha.composes hpa
    obtain ⟨hpb, hfb⟩ := hb.composes_all hpb
    refine ⟨⟨hpa, hpb⟩, ?_⟩
    rintro condition (h | h)
    · exact hfb _ h
    · exact hfa _ h
  · intro hbase
    cases role with
    | formula => exact absurd rfl hrole
    | base => exact absurd rfl hbase
    | number => exact truth_of_number (hop rfl) hexpr hraw hconditions

/-- The condition of a field goes before what its own fields require. -/
theorem precond2 {a' b' : Data} {ca cb : List Data}
    (ha : CondsMoved fields .base a a' ca)
    (hb : CondsMoved fields .formula b b' cb) :
    CondsMoved fields .base (.op .precond2 t a b .none) a' (b' :: cb ++ ca) := by
  obtain ⟨hraw, hroot, hca⟩ := ha.number nofun
  refine ⟨ha.expr, ?_, fun hbase => absurd rfl hbase, ha.links, ?_,
    fun _ => ⟨hraw, hroot, fun packet => ⟨(hca packet).1, ?_⟩⟩,
    fun hbase => absurd rfl hbase⟩
  · simp only [List.cons_append, List.mem_cons, List.mem_append]
    rintro condition (rfl | h | h)
    · exact hb.expr
    · exact hb.formulas _ h
    · exact ha.formulas _ h
  · simp only [Data.meaning, FieldMeaning.precond, List.cons_append,
      List.mem_cons, List.mem_append]
    rintro ⟨hpb, hpa⟩
    obtain ⟨hpb, hfb⟩ := hb.composes_all hpb
    obtain ⟨hpa, hfa⟩ := ha.composes hpa
    refine ⟨hpa, ?_⟩
    rintro condition (rfl | h | h)
    · exact hpb
    · exact hfb _ h
    · exact hfa _ h
  · simp only [Data.meaning, FieldMeaning.precond, List.cons_append,
      allTrue_cons, allTrue_append]
    rw [hb.truth nofun, (hca packet).2, Bool.and_comm (allTrue fields cb _),
      Bool.and_assoc]

/-- `&&` leaves the conditions of its operands in front of both. -/
theorem and {a' b' : Data} {ca cb : List Data}
    (ha : CondsMoved fields .formula a a' ca)
    (hb : CondsMoved fields .formula b b' cb) :
    CondsMoved fields .formula (.logicalAnd a b) (.logicalAnd a' b')
      (cb ++ ca) := by
  refine ⟨.and ha.expr hb.expr, ?_, fun _ => rfl, rfl, ?_, fun h => absurd rfl h,
    fun _ packet => ?_⟩
  · simp only [List.mem_append]
    rintro condition (h | h)
    · exact hb.formulas _ h
    · exact ha.formulas _ h
  · simp only [Data.meaning, FieldMeaning.operator, List.mem_append]
    rintro ⟨hpa, hpb, hpc⟩
    obtain ⟨hpa, hfa⟩ := ha.composes_all hpa
    obtain ⟨hpb, hfb⟩ := hb.composes_all hpb
    refine ⟨⟨hpa, hpb, hpc⟩, ?_⟩
    rintro condition (h | h)
    · exact hfb _ h
    · exact hfa _ h
  · simp only [Data.meaning, FieldMeaning.operator, allTrue_append]
    rw [ha.truth nofun, hb.truth nofun]
    ac_rfl

/-- The conditions of an operand of `||` or `!` stay with this operand. -/
theorem guarded {conditions : List Data}
    (h : CondsMoved fields .formula d d' conditions) :
    RawExpr .formula (guardWith conditions d') ∧
      ((d.meaning fields).Composes →
        ((guardWith conditions d').meaning fields).Composes) ∧
      ∀ packet, ((guardWith conditions d').meaning fields).truth packet =
        (d.meaning fields).truth packet := by
  refine ⟨rawExpr_guardWith h.expr h.formulas, fun hcomposes => ?_, fun packet => ?_⟩
  · obtain ⟨hd', hconditions⟩ := h.composes_all hcomposes
    exact composes_guardWith hd' hconditions
  · rw [truth_guardWith, h.truth nofun]

theorem or {a' b' : Data} {ca cb : List Data}
    (ha : CondsMoved fields .formula a a' ca)
    (hb : CondsMoved fields .formula b b' cb) :
    CondsMoved fields .formula (.logicalOr a b)
      (.logicalOr (guardWith ca a') (guardWith cb b')) [] := by
  obtain ⟨hexpra, hcomposesa, htrutha⟩ := ha.guarded
  obtain ⟨hexprb, hcomposesb, htruthb⟩ := hb.guarded
  refine ⟨.or hexpra hexprb, nofun, fun _ => rfl, rfl, ?_, fun h => absurd rfl h,
    fun _ packet => ?_⟩
  · rintro ⟨hpa, hpb, hpc⟩
    exact ⟨⟨hcomposesa hpa, hcomposesb hpb, hpc⟩, nofun⟩
  · simp only [Data.meaning, FieldMeaning.operator, htrutha, htruthb,
      allTrue_nil, Bool.true_and]

theorem not {a' : Data} {ca : List Data}
    (ha : CondsMoved fields .formula a a' ca) :
    CondsMoved fields .formula (.logicalNot a) (.logicalNot (guardWith ca a')) [] := by
  obtain ⟨hexpra, hcomposesa, htrutha⟩ := ha.guarded
  refine ⟨.not hexpra, nofun, fun _ => rfl, rfl, ?_, fun h => absurd rfl h,
    fun _ packet => ?_⟩
  · rintro ⟨hpa, hpb, hpc⟩
    exact ⟨⟨hcomposesa hpa, hpb, hpc⟩, nofun⟩
  · simp only [Data.meaning, FieldMeaning.operator, htrutha, allTrue_nil,
      Bool.true_and]

theorem test {conditions : List Data} (hd : integerNumber d = true)
    (h : CondsMoved fields .number d d' conditions) :
    CondsMoved fields .formula d d' conditions where
  expr := .test (by rw [← hd, integerNumber, h.type nofun]; rfl) h.expr
  formulas := h.formulas
  type := fun _ => h.type nofun
  links := h.links
  composes := h.composes
  number := fun hrole => absurd rfl hrole
  truth := fun _ => h.truth nofun

end CondsMoved

private theorem bubblePrecond_leaf {same : Bool} {root : Data}
    (hop : d.isOp = false) :
    bubblePrecond same true root d = .ok (d, []) := by
  cases d with
  | op => cases hop
  | _ => rfl

/-- The conditions of all operands go to one place. -/
private theorem bubblePrecond_op {same : Bool} {root a' b' c' : Data}
    {ca cb cc : List Data} (hprecond : dsc ≠ .precond)
    (hprecond2 : dsc ≠ .precond2) (hor : dsc ≠ .logicalOr)
    (hnot : dsc ≠ .logicalNot)
    (hb : bubblePrecond false true root b = .ok (b', cb))
    (ha : bubblePrecond false true (guardWith cb root) a = .ok (a', ca))
    (hc : bubblePrecond false true (guardWith ca (guardWith cb root)) c =
      .ok (c', cc)) :
    bubblePrecond same true root (.op dsc t a b c) =
      .ok (.op dsc t a' b' c', cb ++ ca ++ cc) := by
  rw [bubblePrecond, if_neg hprecond, if_neg hprecond2,
    if_neg (by simp [hor, hnot]), bind_ok hb]
  simp only [bind_ok ha, bind_ok hc]
  rfl

private theorem bubblePrecond_alternatives {same : Bool} {root a' b' : Data}
    {ca cb : List Data} (hdsc : dsc = .logicalOr ∨ dsc = .logicalNot)
    (ha : bubblePrecond true true a a = .ok (a', ca))
    (hb : bubblePrecond true true b b = .ok (b', cb)) :
    bubblePrecond same true root (.op dsc t a b c) =
      .ok (.op dsc t (guardWith ca a') (guardWith cb b') c, []) := by
  rw [bubblePrecond, if_neg (by rcases hdsc with rfl | rfl <;> decide),
    if_neg (by rcases hdsc with rfl | rfl <;> decide),
    if_pos ⟨rfl, hdsc⟩, bind_ok ha]
  simp only [bind_ok hb]
  rfl

private theorem bubblePrecond_precond2 {root a' b' : Data}
    {ca cb : List Data} (hput : putCondition root b = .ok ())
    (hb : bubblePrecond false true (.logicalAnd b root) b = .ok (b', cb))
    (ha : bubblePrecond false true (guardWith cb (.logicalAnd b root)) a =
      .ok (a', ca)) :
    bubblePrecond false true root (.op .precond2 t a b c) =
      .ok (a', b' :: cb ++ ca) := by
  rw [bubblePrecond, if_neg (by decide), if_pos rfl, bind_ok hput, bind_ok hb]
  simp only [bind_ok ha]
  rfl

/-- `*root`, in front of which conditions can be put that come from `d`. -/
structure RootOf (d root : Data) : Prop where
  number : integerNumber root = true
  op : d.isOp = true → root.isOp = true

private theorem RootOf.guardWith {root : Data} (h : RootOf d root)
    (hd : d.isOp = true) (conditions : List Data) {e : Data} :
    RootOf e (guardWith conditions root) :=
  ⟨integerNumber_guardWith h.number _, fun _ => isOp_guardWith (h.op hd) _⟩

private theorem RootOf.logicalAnd (condition root : Data) {e : Data} :
    RootOf e (.logicalAnd condition root) :=
  ⟨rfl, fun _ => rfl⟩

/-- All conditions find their places. -/
theorem FieldExpr.bubbles (h : ExpandedExpr role d) (same : Bool) {root : Data}
    (hsame : role = .base → same = false) (hroot : RootOf d root) :
    ∃ d' conditions, bubblePrecond same true root d = .ok (d', conditions) ∧
      CondsMoved fields role d d' conditions := by
  induction h generalizing same root with
  | test hd h ih =>
      obtain ⟨d', conditions, hok, hbubbled⟩ := ih same nofun hroot
      exact ⟨d', conditions, hok, hbubbled.test hd⟩
  | and ha hb iha ihb =>
      obtain ⟨b', cb, hokb, hbubbledb⟩ := ihb false nofun (hroot.guardWith rfl [])
      obtain ⟨a', ca, hoka, hbubbleda⟩ := iha false nofun (hroot.guardWith rfl cb)
      refine ⟨_, _, bubblePrecond_op (by decide) (by decide) (by decide)
        (by decide) hokb hoka (bubblePrecond_leaf rfl), ?_⟩
      rw [List.append_nil]
      exact hbubbleda.and hbubbledb
  | or ha hb iha ihb =>
      obtain ⟨a', ca, hoka, hbubbleda⟩ :=
        iha true nofun ⟨ha.integerNumber, id⟩
      obtain ⟨b', cb, hokb, hbubbledb⟩ :=
        ihb true nofun ⟨hb.integerNumber, id⟩
      exact ⟨_, _, bubblePrecond_alternatives (.inl rfl) hoka hokb,
        hbubbleda.or hbubbledb⟩
  | not ha iha =>
      obtain ⟨a', ca, hoka, hbubbleda⟩ :=
        iha true nofun ⟨ha.integerNumber, id⟩
      exact ⟨_, _, bubblePrecond_alternatives (.inr rfl) hoka
        (bubblePrecond_leaf rfl), hbubbleda.not⟩
  | none =>
      exact ⟨_, _, bubblePrecond_leaf rfl, .refl .none fun _ => rfl⟩
  | unum n =>
      exact ⟨_, _, bubblePrecond_leaf rfl, .refl (.unum n) fun _ => rfl⟩
  | ipv4 n =>
      exact ⟨_, _, bubblePrecond_leaf rfl, .refl (.ipv4 n) fun _ => rfl⟩
  | ipv6 n =>
      exact ⟨_, _, bubblePrecond_leaf rfl, .refl (.ipv6 n) fun _ => rfl⟩
  | op hdsc ht ha hb hc iha ihb ihc =>
      obtain ⟨b', cb, hokb, hbubbledb⟩ := ihb false nofun (hroot.guardWith rfl [])
      obtain ⟨a', ca, hoka, hbubbleda⟩ := iha false nofun (hroot.guardWith rfl cb)
      obtain ⟨c', cc, hokc, hbubbledc⟩ := ihc false nofun
        ⟨integerNumber_guardWith (integerNumber_guardWith hroot.number _) _,
          fun _ => isOp_guardWith (isOp_guardWith (hroot.op rfl) _) _⟩
      obtain ⟨-, hprecond, hprecond2, -, hor, hnot⟩ :=
        OpDsc.computes_cases hdsc
      exact ⟨_, _, bubblePrecond_op hprecond hprecond2 hor hnot hokb hoka hokc,
        .op hdsc ht (.op hdsc ht ha hb hc) hbubbleda hbubbledb hbubbledc⟩
  | access n ht ha hb iha ihb =>
      obtain ⟨b', cb, hokb, hbubbledb⟩ := ihb false nofun (hroot.guardWith rfl [])
      obtain ⟨a', ca, hoka, hbubbleda⟩ :=
        iha false (fun _ => rfl) (hroot.guardWith rfl cb)
      refine ⟨_, _, bubblePrecond_op (by decide) (by decide) (by decide)
        (by decide) hokb hoka (bubblePrecond_leaf rfl), ?_⟩
      rw [List.append_nil]
      exact .access nofun (fun _ => .access n ht ha hb)
        (.access n ht hbubbleda.expr hbubbledb.expr) hbubbleda hbubbledb
  | field hf => exact hf.elim
  | fieldRoot r =>
      exact ⟨_, _, bubblePrecond_leaf rfl, .refl (.fieldRoot r) fun _ => rfl⟩
  | inner n ht ha hb iha ihb =>
      obtain ⟨b', cb, hokb, hbubbledb⟩ := ihb false nofun (hroot.guardWith rfl [])
      obtain ⟨a', ca, hoka, hbubbleda⟩ :=
        iha false (fun _ => rfl) (hroot.guardWith rfl cb)
      refine ⟨_, _, bubblePrecond_op (by decide) (by decide) (by decide)
        (by decide) hokb hoka (bubblePrecond_leaf rfl), ?_⟩
      rw [List.append_nil]
      exact .access nofun nofun
        (.inner n ht hbubbleda.expr hbubbledb.expr) hbubbleda hbubbledb
  | precond2 h ht ha hop hb iha ihb =>
      obtain rfl := hsame rfl
      have hput := putCondition_ok hroot.number (hroot.op rfl)
        hb.integerNumber
      obtain ⟨b', cb, hokb, hbubbledb⟩ :=
        ihb false nofun (RootOf.logicalAnd _ root)
      obtain ⟨a', ca, hoka, hbubbleda⟩ := iha false (fun _ => rfl)
        ⟨integerNumber_guardWith (d := .logicalAnd _ root) rfl cb,
          fun _ => isOp_guardWith (d := .logicalAnd _ root) rfl cb⟩
      exact ⟨_, _, bubblePrecond_precond2 hput hokb hoka,
        hbubbleda.precond2 hbubbledb⟩

end Tcng
