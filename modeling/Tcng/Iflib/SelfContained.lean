import Tcng.Formula

/-! What an expression can end in, as far as its shape tells
(`self_contained`, `action_tree` and `side_effect` of `iflib_act.c`). -/

namespace Tcng

open ShortCircuit ShortCircuit.Eval

inductive SelfContained
  | scNo | scNoFalse | scNoTrue | scYes
  deriving DecidableEq, Repr

def selfContained : Data → SelfContained
  | .op .count .. => .scNoTrue
  | .op .logicalNot _ a _ _ =>
      match selfContained a with
      | .scNo => .scNo
      | .scNoTrue => .scNoFalse
      | .scNoFalse => .scNoTrue
      | .scYes => .scYes
  | .op .logicalAnd _ a b _ =>
      match selfContained a with
      | .scYes => .scYes
      | .scNoFalse => .scNoFalse
      | .scNoTrue => selfContained b
      | .scNo =>
          match selfContained b with
          | .scYes | .scNoFalse => .scNoFalse
          | _ => .scNo
  | .op .logicalOr _ a b _ =>
      match selfContained a with
      | .scYes => .scYes
      | .scNoTrue => .scNoTrue
      | .scNoFalse => selfContained b
      | .scNo =>
          match selfContained b with
          | .scYes | .scNoTrue => .scNoTrue
          | _ => .scNo
  | .op .. => .scNo
  | .unum n => if n ≠ 0 then .scNoTrue else .scNoFalse
  | .decision _ => .scYes
  | _ => .scNo

def actionTree : Data → Bool
  | .op .conform .. | .op .count .. => true
  | .op .logicalAnd _ a b _ | .op .logicalOr _ a b _ =>
      actionTree a && (selfContained a == .scYes || actionTree b)
  | .op .. => false
  | .decision _ => true
  | _ => false

def sideEffect : Data → Bool
  | .op dsc _ a b c =>
      dsc == .count || (sideEffect a || sideEffect b || sideEffect c)
  | .decision _ => true
  | _ => false

/-- What a verdict says about an evaluation. -/
def SelfContained.Sound : SelfContained → Eval → Prop
  | scNo, _ => True
  | scNoFalse, x => NeverTrue x
  | scNoTrue, x => NeverFalse x
  | scYes, x => Decides x

/-- Built from constants and packet accesses by arithmetic and relations. -/
def Data.computed : Data → Bool
  | .police _ | .decision _ => false
  | .op dsc _ a b c => (dsc.arithmetic || dsc.relational) &&
      (a.computed && b.computed && c.computed)
  | _ => true

theorem Data.computed_numeric {d : Data} (h : d.numeric = true) :
    d.computed = true := by
  induction d with
  | op dsc t a b c iha ihb ihc =>
      simp only [Data.numeric, Bool.and_eq_true] at h
      obtain ⟨hdsc, ⟨ha, hb⟩, hc⟩ := h
      simp [Data.computed, hdsc, iha ha, ihb hb, ihc hc]
  | police | decision => cases h
  | _ => rfl

/-- If-expressions without fields and preconditions, also under offsets and
field roots. -/
inductive Expression : Data → Prop
  | number {d : Data} (h : d.computed = true) : Expression d
  | decision (d : Decision) : Expression (.decision d)
  | conform (t : DataType) (p : Bucket) :
      Expression (.op .conform t (.police p) .none .none)
  | count (t : DataType) (p : Bucket) :
      Expression (.op .count t (.police p) .none .none)
  | not (t : DataType) {a : Data} (ha : Expression a) :
      Expression (.op .logicalNot t a .none .none)
  | and (t : DataType) {a b : Data} (ha : Expression a) (hb : Expression b) :
      Expression (.op .logicalAnd t a b .none)
  | or (t : DataType) {a b : Data} (ha : Expression a) (hb : Expression b) :
      Expression (.op .logicalOr t a b .none)
  | offset (t : DataType) {a b : Data} (ha : Expression a)
      (hb : b.computed = true) : Expression (.op .offset t a b .none)
  | fieldRoot (t : DataType) {a b : Data} (ha : Expression a)
      (hb : b.computed = true) : Expression (.op .fieldRoot t a b .none)

theorem Formula.expression {v : Vocabulary} {d : Data} (h : Formula v d) :
    Expression d := by
  induction h with
  | test h =>
      obtain ⟨dsc, x, k, rfl, hdsc, hx, hk⟩ := Data.isTest_cases (v.isTest h)
      apply Expression.number
      simp [Data.computed, hdsc, Data.computed_numeric hx,
        Data.computed_numeric hk]
  | decision d => exact .decision d
  | conform p => exact .conform .unum p
  | count _ p => exact .count .unum p
  | constant _ n => exact .number rfl
  | not _ _ ih => exact .not .unum ih
  | and _ _ iha ihb => exact .and .unum iha ihb
  | or _ _ iha ihb => exact .or .unum iha ihb

/-- The rows of the tables for `||`, `&&` and `!`. -/
theorem Expression.selfContained_sound {d : Data} (h : Expression d)
    (env : Env) (base : Base) :
    (selfContained d).Sound (d.eval env base) := by
  induction h generalizing base with
  | @number d h =>
      cases d with
      | unum n =>
          simp only [selfContained, Data.eval_unum]
          by_cases hn : n ≠ 0
          · rw [if_pos hn, decide_eq_true hn]
            exact neverFalse_true
          · rw [if_neg hn, decide_eq_false hn]
            exact neverTrue_false
      | op dsc =>
          simp only [Data.computed, Bool.and_eq_true] at h
          cases dsc <;> first | trivial | cases h.1
      | decision => cases h
      | _ => trivial
  | decision d => exact decides_decide d
  | conform t p => trivial
  | count t p =>
      intro s hs
      cases hs
  | not _ _ ih =>
      have ih := ih base
      simp only [selfContained, Data.eval_logicalNot]
      split <;> rename_i hsc <;> rw [hsc] at ih
      · trivial
      · exact NeverFalse.not ih
      · exact NeverTrue.not ih
      · exact ⟨ih.2.not, ih.1.not⟩
  | and _ _ _ iha ihb =>
      have iha := iha base
      have ihb := ihb base
      simp only [selfContained, Data.eval_logicalAnd]
      split <;> rename_i hsc <;> rw [hsc] at iha
      · rw [iha.2.and_left]
        exact iha
      · exact NeverTrue.and_of_left iha _
      · cases hb : selfContained _ <;> rw [hb] at ihb
        · trivial
        · exact ihb.and_of_right _
        · exact NeverFalse.and iha ihb
        · exact ⟨NeverFalse.and iha ihb.1, ihb.2.and_of_right _⟩
      · split <;> rename_i hb <;> try trivial
        · rw [hb] at ihb
          exact ihb.2.and_of_right _
        · rw [hb] at ihb
          exact NeverTrue.and_of_right _ ihb
  | or _ _ _ iha ihb =>
      have iha := iha base
      have ihb := ihb base
      simp only [selfContained, Data.eval_logicalOr]
      split <;> rename_i hsc <;> rw [hsc] at iha
      · rw [iha.1.or_left]
        exact iha
      · exact NeverFalse.or_of_left iha _
      · cases hb : selfContained _ <;> rw [hb] at ihb
        · trivial
        · exact NeverTrue.or iha ihb
        · exact ihb.or_of_right _
        · exact ⟨ihb.1.or_of_right _, NeverTrue.or iha ihb.2⟩
      · split <;> rename_i hb <;> try trivial
        · rw [hb] at ihb
          exact ihb.1.or_of_right _
        · rw [hb] at ihb
          exact NeverFalse.or_of_right _ ihb
  | offset | fieldRoot => trivial

theorem selfContained_sound {v : Vocabulary} {d : Data} (h : Formula v d)
    (env : Env) (base : Base) :
    (selfContained d).Sound (d.eval env base) :=
  h.expression.selfContained_sound env base

/-! ## Trimming -/

/-- What follows a decision is left out (`trim_self_contained`). -/
def trimSelfContained : Data → Data
  | .op dsc t a b c =>
      if (dsc = .logicalAnd ∨ dsc = .logicalOr) ∧
          selfContained (trimSelfContained a) = .scYes then
        trimSelfContained a
      else .op dsc t (trimSelfContained a) (trimSelfContained b)
        (trimSelfContained c)
  | d => d

theorem trimSelfContained_computed {d : Data} (h : d.computed = true) :
    trimSelfContained d = d := by
  induction d with
  | op dsc t a b c iha ihb ihc =>
      simp only [Data.computed, Bool.and_eq_true] at h
      obtain ⟨hdsc, ⟨ha, hb⟩, hc⟩ := h
      have hlogical : ¬(dsc = .logicalAnd ∨ dsc = .logicalOr) := by
        rintro (rfl | rfl) <;> cases hdsc
      rw [trimSelfContained, if_neg fun h => hlogical h.1, iha ha, ihb hb,
        ihc hc]
  | _ => rfl

private theorem trim_op {dsc : OpDsc}
    (h : ¬(dsc = .logicalAnd ∨ dsc = .logicalOr)) (t : DataType)
    (a b c : Data) :
    trimSelfContained (.op dsc t a b c) =
      .op dsc t (trimSelfContained a) (trimSelfContained b)
        (trimSelfContained c) := by
  rw [trimSelfContained, if_neg fun hboth => h hboth.1]

theorem Expression.trim {d : Data} (h : Expression d) :
    Expression (trimSelfContained d) ∧ ∀ env base,
      (trimSelfContained d).eval env base = d.eval env base := by
  induction h with
  | number h =>
      rw [trimSelfContained_computed h]
      exact ⟨.number h, fun _ _ => rfl⟩
  | decision d => exact ⟨.decision d, fun _ _ => rfl⟩
  | conform t p => exact ⟨.conform t p, fun _ _ => rfl⟩
  | count t p => exact ⟨.count t p, fun _ _ => rfl⟩
  | not t _ ih =>
      rw [trim_op (by decide)]
      refine ⟨.not t ih.1, fun env base => ?_⟩
      rw [Data.eval_logicalNot, Data.eval_logicalNot, ih.2]
  | and t _ _ iha ihb =>
      rw [trimSelfContained]
      split
      · rename_i hsc
        refine ⟨iha.1, fun env base => ?_⟩
        have hsound := iha.1.selfContained_sound env base
        rw [hsc.2] at hsound
        rw [Data.eval_logicalAnd, ← iha.2, hsound.2.and_left]
      · refine ⟨.and t iha.1 ihb.1, fun env base => ?_⟩
        rw [Data.eval_logicalAnd, Data.eval_logicalAnd, iha.2, ihb.2]
  | or t _ _ iha ihb =>
      rw [trimSelfContained]
      split
      · rename_i hsc
        refine ⟨iha.1, fun env base => ?_⟩
        have hsound := iha.1.selfContained_sound env base
        rw [hsc.2] at hsound
        rw [Data.eval_logicalOr, ← iha.2, hsound.1.or_left]
      · refine ⟨.or t iha.1 ihb.1, fun env base => ?_⟩
        rw [Data.eval_logicalOr, Data.eval_logicalOr, iha.2, ihb.2]
  | offset t _ hb ih =>
      rw [trim_op (by decide), trimSelfContained_computed hb]
      refine ⟨.offset t ih.1 hb, fun env base => ?_⟩
      simp only [Data.eval, ih.2]
  | fieldRoot t _ hb ih =>
      rw [trim_op (by decide), trimSelfContained_computed hb]
      refine ⟨.fieldRoot t ih.1 hb, fun env base => ?_⟩
      simp only [Data.eval, ih.2]

/-- The verdict on an expression is right for every packet, all conform results
and whatever has been counted before, and leaving out what it makes
unreachable changes nothing. -/
theorem selfContained_verdict {d : Data} (h : Expression d) (env : Env)
    (base : Base) :
    (selfContained d = .scYes →
      ∀ s, ∃ decision, (d.eval env base s).2 = .decided decision) ∧
    (selfContained d = .scNoTrue →
      ∀ s, (d.eval env base s).2 ≠ .truth false) ∧
    (selfContained d = .scNoFalse →
      ∀ s, (d.eval env base s).2 ≠ .truth true) ∧
    (selfContained d = .scYes ∨ selfContained d = .scNoFalse →
      ∀ t b c, (Data.op .logicalAnd t d b c).eval env base =
        d.eval env base) ∧
    (selfContained d = .scYes →
      ∀ t b c, (Data.op .logicalOr t d b c).eval env base =
        d.eval env base) ∧
    (trimSelfContained d).eval env base = d.eval env base := by
  have hsound := h.selfContained_sound env base
  refine ⟨fun hsc s => ?_, fun hsc => ?_, fun hsc => ?_, fun hsc t b c => ?_,
    fun hsc t b c => ?_, h.trim.2 env base⟩
  · rw [hsc] at hsound
    rcases hs : (d.eval env base s).2 with (_ | _) | decision
    · exact absurd hs (hsound.1 s)
    · exact absurd hs (hsound.2 s)
    · exact ⟨decision, rfl⟩
  · rw [hsc] at hsound
    exact hsound
  · rw [hsc] at hsound
    exact hsound
  · rw [Data.eval_logicalAnd]
    rcases hsc with hsc | hsc <;> rw [hsc] at hsound
    · exact hsound.2.and_left _
    · exact NeverTrue.and_left hsound _
  · rw [hsc] at hsound
    rw [Data.eval_logicalOr, hsound.1.or_left]

/-- `conform p && drop || continue` -/
theorem selfContained_verdict_police :
    (trimSelfContained (.logicalOr (.logicalAnd (.conform 1)
      (.decision .drDrop)) (.decision .drContinue))).eval
        (.steady (fun _ _ => false) fun _ => true) .start =
      (Data.logicalOr (.logicalAnd (.conform 1)
        (.decision .drDrop)) (.decision .drContinue)).eval
          (.steady (fun _ _ => false) fun _ => true) .start :=
  (selfContained_verdict (.or .unum (.and .unum (.conform .unum _)
    (.decision _)) (.decision _)) _ _).2.2.2.2.2

/-- Only counting changes what has been counted. -/
theorem Formula.quiet {v : Vocabulary} (hv : ¬v.count) {d : Data}
    (h : Formula v d) (env : Env) (base : Base) :
    Quiet (d.eval env base) := by
  induction h with
  | test h =>
      obtain ⟨dsc, x, k, rfl, hdsc, _⟩ := Data.isTest_cases (v.isTest h)
      rw [Data.eval_relational hdsc]
      exact quiet_truth _
  | decision d => exact quiet_decide d
  | conform p => exact fun _ => rfl
  | count h => exact absurd h hv
  | constant _ n => exact quiet_truth _
  | not _ _ ih => simpa using ih.not
  | and _ _ iha ihb => simpa using iha.and ihb
  | or _ _ iha ihb => simpa using iha.or ihb

/-- With fixed conform results, an expression always counts the same. -/
theorem Formula.steady {v : Vocabulary} {d : Data} (h : Formula v d)
    (packet : Packet) (conforms : Bucket → Bool) (base : Base) :
    Steady (d.eval (.steady packet conforms) base) := by
  induction h with
  | test h =>
      obtain ⟨dsc, x, k, rfl, hdsc, _⟩ := Data.isTest_cases (v.isTest h)
      rw [Data.eval_relational hdsc]
      exact steady_truth _
  | decision d => exact steady_decide d
  | conform p => exact steady_truth (conforms p)
  | count _ p => exact ⟨[p], .truth true, rfl⟩
  | constant _ n => exact steady_truth _
  | not _ _ ih => simpa using ih.not
  | and _ _ iha ihb => simpa using iha.and ihb
  | or _ _ iha ihb => simpa using iha.or ihb

end Tcng
