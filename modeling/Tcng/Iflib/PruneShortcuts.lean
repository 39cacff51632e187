import Tcng.Iflib.Chains

/-! Dead branches of short-circuit evaluation (`prune_shortcuts` of
`iflib_red.c`). -/

namespace Tcng

open ShortCircuit
open ShortCircuit.Eval hiding decide

/-- The rules for constants: `&&` and `||` end at the truth `short`. -/
def pruneConstant (short : Bool) (dsc : OpDsc) (t : DataType) (a b c : Data) :
    Data :=
  match a, b with
  | .unum n, b => if decide (n ≠ 0) = short then boolUnum short else b
  | a, .unum n =>
      if decide (n ≠ 0) = short then
        if sideEffect a then .op dsc t a (.unum n) c else boolUnum short
      else a
  | a, b => .op dsc t a b c

/-- An operator whose operands are pruned. -/
def pruneNode (dsc : OpDsc) (t : DataType) (a b c : Data) : Data :=
  match dsc with
  | .logicalAnd =>
      if a.type = .decision then a else pruneConstant false dsc t a b c
  | .logicalOr =>
      if a.type = .decision then a else pruneConstant true dsc t a b c
  | dsc => .op dsc t a b c

def pruneShortcuts : Data → Data
  | .op dsc t a b c =>
      pruneNode dsc t (pruneShortcuts a) (pruneShortcuts b) (pruneShortcuts c)
  | d => d

/-! ## What is left on the left -/

namespace Data

/-- No `&&` and no `||` has a left operand of this kind. -/
def LeftFree (kind : Data → Bool) : Data → Prop
  | op dsc _ a b c =>
      (dsc = .logicalAnd ∨ dsc = .logicalOr → kind a = false) ∧
        (a.LeftFree kind ∧ b.LeftFree kind ∧ c.LeftFree kind)
  | _ => True

def isUnum : Data → Bool
  | unum _ => true
  | _ => false

/-- What `prune_shortcuts` looks for. -/
def isShortcut (d : Data) : Bool := d.isDecision || d.isUnum

end Data

private theorem isDecision_of_type {d : Data} (h : d.type ≠ .decision) :
    d.isDecision = false := by
  cases d with
  | decision => exact absurd rfl h
  | _ => rfl

section

variable {short : Bool} {dsc : OpDsc} {t : DataType} {a b c : Data}

private theorem leftFree_pruneConstant (htype : a.type ≠ .decision)
    (ha : a.LeftFree Data.isShortcut) (hb : b.LeftFree Data.isShortcut)
    (hc : c.LeftFree Data.isShortcut) :
    (pruneConstant short dsc t a b c).LeftFree Data.isShortcut := by
  have hleft {b' : Data} (hunum : a.isUnum = false)
      (hb' : b'.LeftFree Data.isShortcut) :
      (Data.op dsc t a b' c).LeftFree Data.isShortcut :=
    ⟨fun _ => by rw [Data.isShortcut, isDecision_of_type htype, hunum]; rfl,
      ha, hb', hc⟩
  unfold pruneConstant
  split
  · split
    · trivial
    · exact hb
  · rename_i hnot
    have hunum : a.isUnum = false := by
      cases a with
      | unum n => exact absurd rfl (hnot n)
      | _ => rfl
    split
    · split
      · exact hleft hunum trivial
      · trivial
    · exact ha
  · rename_i hnot _
    have hunum : a.isUnum = false := by
      cases a with
      | unum n => exact absurd rfl (hnot n)
      | _ => rfl
    exact hleft hunum hb

private theorem leftFree_pruneNode (ha : a.LeftFree Data.isShortcut)
    (hb : b.LeftFree Data.isShortcut) (hc : c.LeftFree Data.isShortcut) :
    (pruneNode dsc t a b c).LeftFree Data.isShortcut := by
  unfold pruneNode
  split
  · split
    · exact ha
    · exact leftFree_pruneConstant ‹_› ha hb hc
  · split
    · exact ha
    · exact leftFree_pruneConstant ‹_› ha hb hc
  · rename_i hand hor
    refine ⟨?_, ha, hb, hc⟩
    rintro (rfl | rfl)
    · exact absurd rfl hand
    · exact absurd rfl hor

end

theorem leftFree_pruneShortcuts (d : Data) :
    (pruneShortcuts d).LeftFree Data.isShortcut := by
  induction d with
  | op dsc t a b c iha ihb ihc => exact leftFree_pruneNode iha ihb ihc
  | _ => trivial

/-! ## What is kept -/

/-- Expressions over `||`, `&&`, constants of both widths, tests, policing
operators and decisions. -/
inductive Shortcut : Data → Prop
  | test {d : Data} (h : d.isTest = true) : Shortcut d
  | decision (d : Decision) : Shortcut (.decision d)
  | conform (p : Bucket) : Shortcut (.conform p)
  | count (p : Bucket) : Shortcut (.count p)
  | constant {d : Data} (h : d.isConstant = true) : Shortcut d
  | and {a b : Data} (ha : Shortcut a) (hb : Shortcut b) :
      Shortcut (.logicalAnd a b)
  | or {a b : Data} (ha : Shortcut a) (hb : Shortcut b) :
      Shortcut (.logicalOr a b)

private theorem eval_constant {d : Data} (h : d.isConstant = true) (env : Env)
    (base : Base) : ∃ value, d.eval env base = .truth value := by
  cases d with
  | unum n => exact ⟨_, Data.eval_unum env base n⟩
  | ipv6 n => exact ⟨_, rfl⟩
  | _ => cases h

/-- Without a side effect, only a truth value is left. -/
private theorem Shortcut.plain {d : Data} (h : Shortcut d)
    (hpure : sideEffect d = false) (env : Env) (base : Base) :
    Plain (d.eval env base) := by
  induction h with
  | test h =>
      obtain ⟨dsc, x, k, rfl, hdsc, _⟩ := Data.isTest_cases h
      rw [Data.eval_relational hdsc]
      exact plain_truth _
  | decision => cases hpure
  | conform p => exact fun counted => ⟨env.conforms counted p, rfl⟩
  | count => cases hpure
  | constant h =>
      obtain ⟨value, hvalue⟩ := eval_constant h env base
      rw [hvalue]
      exact plain_truth value
  | and _ _ iha ihb =>
      simp only [sideEffect, Bool.or_eq_false_iff] at hpure
      rw [Data.eval_logicalAnd]
      exact (iha hpure.2.1.1).and (ihb hpure.2.1.2)
  | or _ _ iha ihb =>
      simp only [sideEffect, Bool.or_eq_false_iff] at hpure
      rw [Data.eval_logicalOr]
      exact (iha hpure.2.1.1).or (ihb hpure.2.1.2)

private theorem Shortcut.eq_decision {a : Data} (h : Shortcut a)
    (htype : a.type = .decision) : ∃ d, a = .decision d := by
  cases h with
  | decision d => exact ⟨d, rfl⟩
  | test h =>
      obtain ⟨_, _, _, rfl, _⟩ := Data.isTest_cases h
      cases htype
  | @constant _ h =>
      cases a with
      | unum | ipv6 => cases htype
      | _ => cases h
  | _ => cases htype

/-! `&&` and `||` in one. -/

private def join (short : Bool) (x y : Eval) : Eval :=
  if short then x.or y else x.and y

private theorem join_truth (short value : Bool) (y : Eval) :
    join short (.truth value) y = if value = short then .truth short else y := by
  cases short <;> cases value <;> rfl

private theorem join_short {short : Bool} {x : Eval} (hx : Plain x) :
    join short x (.truth short) = .truth short := by
  cases short with
  | false => exact hx.and_false
  | true => exact hx.or_true

private theorem join_unit {short value : Bool} (h : value ≠ short) (x : Eval) :
    join short x (.truth value) = x := by
  cases short with
  | false =>
      rw [Bool.eq_true_of_not_eq_false h]
      exact Eval.and_true x
  | true =>
      rw [Bool.eq_false_of_not_eq_true h]
      exact Eval.or_false x

section

variable {short : Bool} {dsc : OpDsc} {a b : Data} {env : Env} {base : Base}

private theorem eval_pruneConstant (short : Bool) (ha : Shortcut a)
    (hop : ∀ b', (Data.op dsc .unum a b' .none).eval env base =
      join short (a.eval env base) (b'.eval env base)) :
    (pruneConstant short dsc .unum a b .none).eval env base =
      join short (a.eval env base) (b.eval env base) := by
  unfold pruneConstant
  split
  · rename_i n _
    rw [Data.eval_unum, join_truth]
    split
    · exact Data.eval_boolUnum short env base
    · rfl
  · rename_i n _
    split
    · rename_i hshort
      split
      · exact hop _
      · rename_i hpure
        rw [Data.eval_unum, hshort, Data.eval_boolUnum]
        exact (join_short (ha.plain (Bool.eq_false_of_not_eq_true hpure) env base)).symm
    · rename_i hunit
      rw [Data.eval_unum, join_unit hunit]
  · exact hop _

/-- A decision ends everything around it. -/
private theorem join_decisionType (short : Bool) (ha : Shortcut a)
    (htype : a.type = .decision) (y : Eval) : join short (a.eval env base) y = a.eval env base := by
  obtain ⟨d, rfl⟩ := ha.eq_decision htype
  cases short <;> rfl

private theorem eval_pruneAnd (ha : Shortcut a) (b : Data) :
    (pruneNode .logicalAnd .unum a b .none).eval env base =
      (a.eval env base).and (b.eval env base) := by
  simp only [pruneNode]
  split
  · exact (join_decisionType false ha ‹_› _).symm
  · exact eval_pruneConstant false ha
      fun b' => Data.eval_logicalAnd env base .unum a b' .none

private theorem eval_pruneOr (ha : Shortcut a) (b : Data) :
    (pruneNode .logicalOr .unum a b .none).eval env base =
      (a.eval env base).or (b.eval env base) := by
  simp only [pruneNode]
  split
  · exact (join_decisionType true ha ‹_› _).symm
  · exact eval_pruneConstant true ha
      fun b' => Data.eval_logicalOr env base .unum a b' .none

end

/-- The rules lead from such expressions to such expressions. -/
private theorem Shortcut.pruneConstant {short : Bool} {dsc : OpDsc}
    {a b : Data} (ha : Shortcut a) (hb : Shortcut b)
    (hop : ∀ {b'}, Shortcut b' → Shortcut (.op dsc .unum a b' .none)) :
    Shortcut (Tcng.pruneConstant short dsc .unum a b .none) := by
  unfold Tcng.pruneConstant
  split
  · split
    · exact .constant rfl
    · exact hb
  · split
    · split
      · exact hop (.constant rfl)
      · exact .constant rfl
    · exact ha
  · exact hop hb

/-- Tests are left as they are. -/
private theorem pruneShortcuts_numeric {d : Data} (h : d.numeric = true) :
    pruneShortcuts d = d := by
  induction d with
  | op dsc t a b c iha ihb ihc =>
      simp only [Data.numeric, Bool.and_eq_true] at h
      obtain ⟨hdsc, ⟨ha, hb⟩, hc⟩ := h
      rw [pruneShortcuts, iha ha, ihb hb, ihc hc]
      cases dsc <;> first | rfl | cases hdsc
  | _ => rfl

private theorem pruneShortcuts_isTest {d : Data} (h : d.isTest = true) :
    pruneShortcuts d = d := by
  obtain ⟨dsc, x, k, rfl, hdsc, hx, hk⟩ := Data.isTest_cases h
  rw [pruneShortcuts, pruneShortcuts_numeric hx, pruneShortcuts_numeric hk]
  cases dsc <;> first | rfl | cases hdsc

private theorem Shortcut.pruned {d : Data} (h : Shortcut d) :
    Shortcut (pruneShortcuts d) ∧ ∀ env base,
      (pruneShortcuts d).eval env base = d.eval env base := by
  induction h with
  | test h => rw [pruneShortcuts_isTest h]; exact ⟨.test h, fun _ _ => rfl⟩
  | decision d => exact ⟨.decision d, fun _ _ => rfl⟩
  | conform p => exact ⟨.conform p, fun _ _ => rfl⟩
  | count p => exact ⟨.count p, fun _ _ => rfl⟩
  | @constant d h =>
      have hleaf : pruneShortcuts d = d :=
        pruneShortcuts_numeric (Data.isConstant_numeric h)
      rw [hleaf]
      exact ⟨.constant h, fun _ _ => rfl⟩
  | and _ _ iha ihb =>
      constructor
      · simp only [pruneShortcuts, pruneNode]
        split
        · exact iha.1
        · exact Shortcut.pruneConstant iha.1 ihb.1 fun hb' => .and iha.1 hb'
      · intro env base
        rw [pruneShortcuts, Data.eval_logicalAnd, ← iha.2, ← ihb.2]
        exact eval_pruneAnd iha.1 _
  | or _ _ iha ihb =>
      constructor
      · simp only [pruneShortcuts, pruneNode]
        split
        · exact iha.1
        · exact Shortcut.pruneConstant iha.1 ihb.1 fun hb' => .or iha.1 hb'
      · intro env base
        rw [pruneShortcuts, Data.eval_logicalOr, ← iha.2, ← ihb.2]
        exact eval_pruneOr iha.1 _

/-- The outcome and what is counted stay, and no decision and no constant of 32
bits is left in front of `&&` and `||`. -/
theorem pruneShortcuts_outcome {d : Data} (h : Shortcut d) :
    (∀ env, (pruneShortcuts d).outcome env = d.outcome env) ∧
      (pruneShortcuts d).LeftFree Data.isShortcut :=
  ⟨fun env => congrFun (h.pruned.2 env .start) [], leftFree_pruneShortcuts d⟩

/-- `(1 && conform 0) || class 2` -/
theorem pruneShortcuts_outcome_conform :
    pruneShortcuts (.logicalOr (.logicalAnd (.unum 1) (.conform 0))
      (.decision (.drClass 2))) =
        .logicalOr (.conform 0) (.decision (.drClass 2)) ∧
      (pruneShortcuts (.logicalOr (.logicalAnd (.unum 1) (.conform 0))
        (.decision (.drClass 2)))).LeftFree Data.isShortcut :=
  ⟨by decide, (pruneShortcuts_outcome (.or (.and (.constant rfl) (.conform 0))
    (.decision (.drClass 2)))).2⟩

/-- A constant of 128 bits stays where it is. -/
theorem pruneShortcuts_wideConstant :
    ¬∀ d, Shortcut d → (∀ env, (pruneShortcuts d).outcome env = d.outcome env) ∧
      (pruneShortcuts d).LeftFree fun a => a.isDecision || a.isConstant := by
  intro h
  have hleft := (h (.logicalAnd (.ipv6 (.ofBitVec32 1)) (.conform 0))
    (.and (.constant rfl) (.conform 0))).2.1 (.inl rfl)
  cases hleft

end Tcng
