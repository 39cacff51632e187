import Tcng.Iflib.SelfContained

/-! Normalization to `||` chains of `&&` chains (`bubble_or` and `linearize`
of `iflib_red.c`). -/

namespace Tcng

open ShortCircuit ShortCircuit.Eval

/-- The rewriting steps of `bubble_or`. -/
inductive Distribution
  | drop (a b : Data)
  | left (a b c : Data)
  | right (a b c : Data)
  deriving DecidableEq, Repr

namespace Distribution

def source : Distribution → Data
  | drop a b => .logicalAnd a b
  | left a b c => .logicalAnd (.logicalOr a b) c
  | right a b c => .logicalAnd a (.logicalOr b c)

/-- `a && b -> a`, `(a || b) && c -> (a && c) || (b && c)` and
`a && (b || c) -> (a && b) || (a && c)`. -/
def apply : Distribution → Except Error Data
  | drop a _ => .ok a
  | left a b c => do
      let ac ← andOrEval .logicalAnd a c
      let bc ← andOrEval .logicalAnd b c
      andOrEval .logicalOr ac bc
  | right a b c => do
      let ab ← andOrEval .logicalAnd a b
      let ac ← andOrEval .logicalAnd a c
      andOrEval .logicalOr ab ac

end Distribution

def distributeLeft (a b : Data) : Option Distribution :=
  match a with
  | .op .logicalOr _ x y _ =>
      if !sideEffect y || selfContained b == .scYes ||
          selfContained x == .scYes || selfContained x == .scNoTrue then
        some (.left x y b)
      else none
  | _ => none

/-- Actions are not normalized. -/
def distributeRight (a b : Data) : Option Distribution :=
  match b with
  | .op .logicalOr _ x y _ =>
      if actionTree b && selfContained b == .scYes then none
      else some (.right a x y)
  | _ => none

/-- What the body of the loop in `bubble_or` does next. -/
def findDistribution : Data → Option Distribution
  | .op .logicalAnd _ a b _ =>
      if selfContained a = .scYes ∨ selfContained a = .scNoFalse then
        some (.drop a b)
      else
        match distributeLeft a b with
        | some step => some step
        | none => distributeRight a b
  | _ => none

def bubbleOr : Nat → Data → Except Error Data
  | 0, _ => .error .outOfFuel
  | fuel + 1, d =>
      if d.type = .none then .ok d
      else do
        let d ← mapOperands (bubbleOr fuel) d
        match findDistribution d with
        | none => .ok d
        | some step => do
            let d ← step.apply
            bubbleOr fuel d

namespace Data

/-- Every step of `bubble_or` makes this smaller. -/
def orWeight : Data → Nat
  | op .logicalAnd _ a b _ => a.orWeight * b.orWeight
  | op _ _ a b c => a.orWeight + b.orWeight + c.orWeight + 1
  | _ => 2

/-- Size of the left operand, which a rotation in `linearize` takes apart. -/
def leftSize : Data → Nat
  | op _ _ a _ _ => a.size
  | _ => 0

end Data

def linearize (d : Data) : Data :=
  match d with
  | .op .logicalOr t (.op .logicalOr t' x y z) b c =>
      linearize (.op .logicalOr t' x (.op .logicalOr t y b c) z)
  | .op .logicalAnd t (.op .logicalAnd t' x y z) b c =>
      linearize (.op .logicalAnd t' x (.op .logicalAnd t y b c) z)
  | .op dsc t a b c => .op dsc t (linearize a) (linearize b) (linearize c)
  | d => d
termination_by (d.size, d.leftSize)
decreasing_by
  all_goals
    simp only [Data.size, Data.leftSize, Prod.lex_def]
    omega

def iflibNormalize (d : Data) : Except Error Data := do
  let d ← bubbleOr d.orWeight d
  .ok (linearize d)

/-- No action comes before a test: whatever counts or decides stands at the
end of its `&&` chain. -/
def Data.guarded : Data → Bool
  | op .logicalAnd _ a b _ => !sideEffect a && (a.guarded && b.guarded)
  | op .logicalOr _ a b _ => a.guarded && b.guarded
  | _ => true

/-! One step. -/

namespace Data

theorem two_le_orWeight (d : Data) : 2 ≤ d.orWeight := by
  induction d with
  | op dsc t a b c iha ihb ihc =>
      have hmul : 2 * 2 ≤ a.orWeight * b.orWeight := Nat.mul_le_mul iha ihb
      cases dsc <;> simp only [orWeight] <;> omega
  | _ => exact Nat.le_refl 2

end Data

/-- The repeated operand ends false and counts nothing. -/
def Distribution.Harmless (env : Env) : Distribution → Prop
  | drop _ _ => True
  | left a b c =>
      (a.outcome env).2 = .truth true → (c.outcome env).2 = .truth false →
        (Data.logicalAnd b c).outcome env = ([], .truth false)
  | right a b _ =>
      (a.outcome env).2 = .truth false ∨
          (a.outcome env).2 = .truth true ∧
            (b.outcome env).2 = .truth false →
        (a.outcome env).1 = []

/-- A step of `bubble_or` keeps the meaning exactly if it is harmless. -/
structure Distribution.Correct (step : Distribution) (d new : Data) :
    Prop where
  apply : step.apply = .ok new
  formula : Formula .counting new
  weight : new.orWeight < d.orWeight
  pure : sideEffect d = false → sideEffect new = false
  guarded : d.guarded = true → new.guarded = true
  harmless : ∀ packet conforms,
    new.eval (.steady packet conforms) .start =
        d.eval (.steady packet conforms) .start ↔
      step.Harmless (.steady packet conforms)

private theorem correct_drop {a b : Data} (ha : Formula .counting a)
    (hsc : selfContained a = .scYes ∨ selfContained a = .scNoFalse) :
    (Distribution.drop a b).Correct (.logicalAnd a b) a where
  apply := rfl
  formula := ha
  weight := by
    have hawt := a.two_le_orWeight
    have hbwt := b.two_le_orWeight
    simp only [Data.orWeight]
    exact (Nat.lt_mul_iff_one_lt_right (by omega)).mpr (by omega)
  pure h := by
    simp only [sideEffect, Bool.or_eq_false_iff] at h
    exact h.2.1.1
  guarded h := by
    simp only [Data.guarded, Bool.and_eq_true] at h
    exact h.2.1
  harmless packet conforms := by
    have hsound := selfContained_sound ha (.steady packet conforms) .start
    have hfalse : NeverTrue (a.eval (.steady packet conforms) .start) := by
      rcases hsc with h | h <;> rw [h] at hsound
      · exact hsound.2
      · exact hsound
    simp [Distribution.Harmless, hfalse.and_left]

private theorem correct_left {a b c : Data} (ha : Formula .counting a)
    (hb : Formula .counting b) (hc : Formula .counting c) :
    (Distribution.left a b c).Correct (.logicalAnd (.logicalOr a b) c)
      (.logicalOr (.logicalAnd a c) (.logicalAnd b c)) where
  apply := by
    have hv : ¬Vocabulary.counting.constant := not_false
    simp only [Distribution.apply, ha.andOrEval hv hc, hb.andOrEval hv hc,
      (ha.and hc).andOrEval hv (hb.and hc), bind, Except.bind]
  formula := (ha.and hc).or (hb.and hc)
  weight := by
    have hcwt := c.two_le_orWeight
    simp only [Data.orWeight, Nat.add_mul]
    omega
  pure h := by
    simp only [sideEffect, Bool.or_eq_false_iff] at h
    simp [sideEffect, h]
  guarded h := by
    simp only [Data.guarded, sideEffect, Bool.and_eq_true,
      Bool.not_eq_true', Bool.or_eq_false_iff] at h
    simp [Data.guarded, h]
  harmless packet conforms := by
    have hiff := or_and_iff_of_steady (ha.steady packet conforms .start)
      (hb.steady packet conforms .start) (hc.steady packet conforms .start)
    simpa only [Data.eval_logicalAnd, Data.eval_logicalOr, Data.outcome,
      Distribution.Harmless] using hiff

private theorem correct_right {a b c : Data} (ha : Formula .counting a)
    (hb : Formula .counting b) (hc : Formula .counting c) :
    (Distribution.right a b c).Correct (.logicalAnd a (.logicalOr b c))
      (.logicalOr (.logicalAnd a b) (.logicalAnd a c)) where
  apply := by
    have hv : ¬Vocabulary.counting.constant := not_false
    simp only [Distribution.apply, ha.andOrEval hv hb, ha.andOrEval hv hc,
      (ha.and hb).andOrEval hv (ha.and hc), bind, Except.bind]
  formula := (ha.and hb).or (ha.and hc)
  weight := by
    have hawt := a.two_le_orWeight
    simp only [Data.orWeight, Nat.mul_add]
    omega
  pure h := by
    simp only [sideEffect, Bool.or_eq_false_iff] at h
    simp [sideEffect, h]
  guarded h := by
    simp only [Data.guarded, Bool.and_eq_true, Bool.not_eq_true'] at h
    simp [Data.guarded, h]
  harmless packet conforms := by
    have hiff := and_or_iff_of_steady (ha.steady packet conforms .start)
      (hb.steady packet conforms .start) (hc.steady packet conforms .start)
    simpa only [Data.eval_logicalAnd, Data.eval_logicalOr, Data.outcome,
      Distribution.Harmless] using hiff

/-- A conjunction is the only formula built with `&&`. -/
private theorem Formula.and_cases {v : Vocabulary} {t : DataType}
    {a b c : Data} (h : Formula v (.op .logicalAnd t a b c)) :
    t = .unum ∧ c = .none ∧ Formula v a ∧ Formula v b := by
  cases h with
  | test h =>
      obtain ⟨dsc, x, k, heq, hdsc, _⟩ := Data.isTest_cases (v.isTest h)
      cases heq
      cases hdsc
  | and ha hb => exact ⟨rfl, rfl, ha, hb⟩

private theorem Formula.or_cases {v : Vocabulary} {t : DataType}
    {a b c : Data} (h : Formula v (.op .logicalOr t a b c)) :
    t = .unum ∧ c = .none ∧ Formula v a ∧ Formula v b := by
  cases h with
  | test h =>
      obtain ⟨dsc, x, k, heq, hdsc, _⟩ := Data.isTest_cases (v.isTest h)
      cases heq
      cases hdsc
  | or ha hb => exact ⟨rfl, rfl, ha, hb⟩

private theorem distributeLeft_cases {a b : Data} {step : Distribution}
    (h : distributeLeft a b = some step) :
    ∃ t x y z, a = .op .logicalOr t x y z ∧ step = .left x y b := by
  unfold distributeLeft at h
  split at h
  · split at h
    · cases h
      exact ⟨_, _, _, _, rfl, rfl⟩
    · cases h
  · cases h

private theorem distributeRight_cases {a b : Data} {step : Distribution}
    (h : distributeRight a b = some step) :
    ∃ t x y z, b = .op .logicalOr t x y z ∧ step = .right a x y := by
  unfold distributeRight at h
  split at h
  · split at h
    · cases h
    · cases h
      exact ⟨_, _, _, _, rfl, rfl⟩
  · cases h

theorem findDistribution_correct {d : Data} (h : Formula .counting d)
    {step : Distribution} (hstep : findDistribution d = some step) :
    ∃ new, step.Correct d new := by
  unfold findDistribution at hstep
  split at hstep
  · obtain ⟨rfl, rfl, ha, hb⟩ := h.and_cases
    split at hstep
    · rename_i hsc
      cases hstep
      exact ⟨_, correct_drop ha hsc⟩
    · split at hstep
      · rename_i hleft
        cases hstep
        obtain ⟨t, x, y, z, rfl, rfl⟩ := distributeLeft_cases hleft
        obtain ⟨rfl, rfl, hx, hy⟩ := ha.or_cases
        exact ⟨_, correct_left hx hy hb⟩
      · obtain ⟨t, x, y, z, rfl, rfl⟩ := distributeRight_cases hstep
        obtain ⟨rfl, rfl, hx, hy⟩ := hb.or_cases
        exact ⟨_, correct_right ha hx hy⟩
  · cases hstep

/-! Whole runs. -/

/-- Every step `bubbleOr fuel d` makes is harmless, each judged on the
expression it is applied to. -/
def HarmlessRun (env : Env) : Nat → Data → Prop
  | 0, _ => True
  | fuel + 1, d =>
      (match d with
        | .op _ _ a b _ => HarmlessRun env fuel a ∧ HarmlessRun env fuel b
        | _ => True) ∧
      ∀ d' step new, mapOperands (bubbleOr fuel) d = .ok d' →
        findDistribution d' = some step → step.apply = .ok new →
        step.Harmless env ∧ HarmlessRun env fuel new

private theorem findDistribution_op {dsc : OpDsc} (h : dsc ≠ .logicalAnd)
    (t : DataType) (a b c : Data) :
    findDistribution (.op dsc t a b c) = none := by
  cases dsc <;> first | rfl | exact absurd rfl h

theorem bubbleOr_numeric {fuel : Nat} {d : Data} (h : d.numeric = true)
    (hfuel : d.orWeight ≤ fuel) : bubbleOr fuel d = .ok d := by
  induction d generalizing fuel with
  | op dsc t a b c iha ihb ihc =>
      simp only [Data.numeric, Bool.and_eq_true] at h
      obtain ⟨hdsc, ⟨ha, hb⟩, hc⟩ := h
      have hne : dsc ≠ .logicalAnd := by
        intro heq
        rw [heq] at hdsc
        cases hdsc
      have hweight : (Data.op dsc t a b c).orWeight =
          a.orWeight + b.orWeight + c.orWeight + 1 := by
        cases dsc <;> first | rfl | exact absurd rfl hne
      obtain ⟨fuel, rfl⟩ : ∃ n, fuel = n + 1 := ⟨fuel - 1, by omega⟩
      have hmap : mapOperands (bubbleOr fuel) (.op dsc t a b c) =
          .ok (.op dsc t a b c) := by
        simp only [mapOperands, iha ha (show _ ≤ fuel by omega),
          ihb hb (show _ ≤ fuel by omega), ihc hc (show _ ≤ fuel by omega),
          bind, Except.bind]
      rw [bubbleOr]
      split
      · rfl
      · simp only [hmap, findDistribution_op hne, bind, Except.bind]
  | _ =>
      obtain ⟨fuel, rfl⟩ : ∃ n, fuel = n + 1 :=
        ⟨fuel - 1, by simp only [Data.orWeight] at hfuel; omega⟩
      rw [bubbleOr]
      split <;> rfl

/-- What becomes of a formula on the way, with what it means as long as `run`
holds. -/
structure Bubbled (run : Env → Prop) (d d' : Data) : Prop where
  formula : Formula .counting d'
  weight : d'.orWeight ≤ d.orWeight
  pure : sideEffect d = false → sideEffect d' = false
  guarded : d.guarded = true → d'.guarded = true
  eval : ∀ packet conforms, run (.steady packet conforms) →
    d'.eval (.steady packet conforms) .start =
      d.eval (.steady packet conforms) .start

private theorem Bubbled.refl {run : Env → Prop} {d : Data}
    (h : Formula .counting d) : Bubbled run d d :=
  ⟨h, Nat.le_refl _, id, id, fun _ _ _ => rfl⟩

private theorem bubbleOr_none {fuel : Nat} (h : 0 < fuel) :
    bubbleOr fuel .none = .ok .none := by
  cases fuel with
  | zero => exact absurd h (Nat.lt_irrefl 0)
  | succ fuel => rfl

private theorem mapOperands_leaf {fuel : Nat} {dsc : OpDsc} {t : DataType}
    {p : Bucket} (h : 0 < fuel) :
    mapOperands (bubbleOr fuel) (.op dsc t (.police p) .none .none) =
      .ok (.op dsc t (.police p) .none .none) := by
  have hpolice : bubbleOr fuel (.police p) = .ok (.police p) := by
    cases fuel with
    | zero => exact absurd h (Nat.lt_irrefl 0)
    | succ fuel => rfl
  simp only [mapOperands, hpolice, bubbleOr_none h, bind, Except.bind]

private theorem Bubbled.and {run : Env → Prop} {a b a' b' : Data}
    (ha : Bubbled run a a') (hb : Bubbled run b b') :
    Bubbled run (.logicalAnd a b) (.logicalAnd a' b') where
  formula := ha.formula.and hb.formula
  weight := by
    simp only [Data.orWeight]
    exact Nat.mul_le_mul ha.weight hb.weight
  pure h := by
    simp only [sideEffect, Bool.or_eq_false_iff] at h
    simp [sideEffect, ha.pure h.2.1.1, hb.pure h.2.1.2]
  guarded h := by
    simp only [Data.guarded, Bool.and_eq_true, Bool.not_eq_true'] at h
    simp [Data.guarded, ha.pure h.1, ha.guarded h.2.1, hb.guarded h.2.2]
  eval packet conforms hrun := by
    simp only [Data.eval_logicalAnd, ha.eval _ _ hrun, hb.eval _ _ hrun]

private theorem Bubbled.or {run : Env → Prop} {a b a' b' : Data}
    (ha : Bubbled run a a') (hb : Bubbled run b b') :
    Bubbled run (.logicalOr a b) (.logicalOr a' b') where
  formula := ha.formula.or hb.formula
  weight := by
    have hale := ha.weight
    have hble := hb.weight
    simp only [Data.orWeight]
    omega
  pure h := by
    simp only [sideEffect, Bool.or_eq_false_iff] at h
    simp [sideEffect, ha.pure h.2.1.1, hb.pure h.2.1.2]
  guarded h := by
    simp only [Data.guarded, Bool.and_eq_true] at h
    simp [Data.guarded, ha.guarded h.1, hb.guarded h.2]
  eval packet conforms hrun := by
    simp only [Data.eval_logicalOr, ha.eval _ _ hrun, hb.eval _ _ hrun]

private theorem Bubbled.mono {run run' : Env → Prop} {d d' : Data}
    (h : Bubbled run d d') (himp : ∀ env, run' env → run env) :
    Bubbled run' d d' :=
  { h with eval := fun _ _ hrun => h.eval _ _ (himp _ hrun) }

/-- The operands are done first, with one unit of fuel less. -/
private theorem mapOperands_bubbled {fuel : Nat} {d : Data}
    (h : Formula .counting d) (hfuel : d.orWeight ≤ fuel + 1)
    (ih : ∀ {d}, Formula .counting d → d.orWeight ≤ fuel →
      ∃ d', bubbleOr fuel d = .ok d' ∧
        Bubbled (fun env => HarmlessRun env fuel d) d d') :
    ∃ d', mapOperands (bubbleOr fuel) d = .ok d' ∧
      Bubbled (fun env => HarmlessRun env (fuel + 1) d) d d' := by
  have hweight := d.two_le_orWeight
  cases h with
  | test h =>
      obtain ⟨dsc, x, k, rfl, hdsc, hx, hk⟩ := Data.isTest_cases h
      have hne : dsc ≠ .logicalAnd := by
        intro heq
        rw [heq] at hdsc
        cases hdsc
      have hsum : (Data.op dsc .unum x k .none).orWeight =
          x.orWeight + k.orWeight + 2 + 1 := by
        cases dsc <;> first | rfl | exact absurd rfl hne
      have hmap : mapOperands (bubbleOr fuel) (.op dsc .unum x k .none) =
          .ok (.op dsc .unum x k .none) := by
        have hxok := bubbleOr_numeric hx (show x.orWeight ≤ fuel by omega)
        have hkok := bubbleOr_numeric hk (show k.orWeight ≤ fuel by omega)
        have hnone := bubbleOr_none (show 0 < fuel by omega)
        simp only [mapOperands, hxok, hkok, hnone, bind, Except.bind]
      exact ⟨_, hmap, .refl (.test h)⟩
  | decision d => exact ⟨_, rfl, .refl (.decision d)⟩
  | conform p =>
      exact ⟨_, mapOperands_leaf (by omega), .refl (.conform p)⟩
  | count h p => exact ⟨_, mapOperands_leaf (by omega), .refl (.count h p)⟩
  | constant h => exact absurd h not_false
  | not h => exact absurd h not_false
  | and ha hb =>
      rename_i a b
      have hawt := a.two_le_orWeight
      have hbwt := b.two_le_orWeight
      have halt : a.orWeight < a.orWeight * b.orWeight :=
        (Nat.lt_mul_iff_one_lt_right (by omega)).mpr (by omega)
      have hblt : b.orWeight < a.orWeight * b.orWeight :=
        (Nat.lt_mul_iff_one_lt_left (by omega)).mpr (by omega)
      simp only [Data.orWeight] at hfuel
      obtain ⟨a', haok, ha'⟩ := ih ha (by omega)
      obtain ⟨b', hbok, hb'⟩ := ih hb (by omega)
      have hnone := bubbleOr_none (show 0 < fuel by omega)
      refine ⟨.logicalAnd a' b', ?_,
        (ha'.mono ?_).and (hb'.mono ?_)⟩
      · simp only [mapOperands, haok, hbok, hnone, bind, Except.bind]
      · exact fun env hrun => hrun.1.1
      · exact fun env hrun => hrun.1.2
  | or ha hb =>
      rename_i a b
      simp only [Data.orWeight] at hfuel
      obtain ⟨a', haok, ha'⟩ := ih ha (by omega)
      obtain ⟨b', hbok, hb'⟩ := ih hb (by omega)
      have hnone := bubbleOr_none (show 0 < fuel by omega)
      refine ⟨.logicalOr a' b', ?_, (ha'.mono ?_).or (hb'.mono ?_)⟩
      · simp only [mapOperands, haok, hbok, hnone, bind, Except.bind]
      · exact fun env hrun => hrun.1.1
      · exact fun env hrun => hrun.1.2

/-- The weight of a formula bounds the steps `bubbleOr` makes on it. -/
theorem bubbleOr_bubbled {fuel : Nat} {d : Data} (h : Formula .counting d)
    (hfuel : d.orWeight ≤ fuel) :
    ∃ d', bubbleOr fuel d = .ok d' ∧
      Bubbled (fun env => HarmlessRun env fuel d) d d' := by
  induction fuel generalizing d with
  | zero =>
      have hweight := d.two_le_orWeight
      omega
  | succ fuel ih =>
      have htype : d.type ≠ .none := by
        have hlogical := h.logical
        intro heq
        simp [Data.logical, integerNumber, heq] at hlogical
      obtain ⟨d', hmap, hd'⟩ := mapOperands_bubbled h hfuel ih
      rw [bubbleOr, if_neg htype]
      cases hstep : findDistribution d' with
      | none =>
          refine ⟨d', ?_, hd'⟩
          simp only [hmap, hstep, bind, Except.bind]
      | some step =>
          obtain ⟨new, hnew⟩ := findDistribution_correct hd'.formula hstep
          have hlt := hnew.weight
          have hle := hd'.weight
          obtain ⟨result, hok, hresult⟩ :=
            ih hnew.formula (show new.orWeight ≤ fuel by omega)
          have hle' := hresult.weight
          refine ⟨result, ?_, hresult.formula, by omega, ?_, ?_, ?_⟩
          · simp only [hmap, hstep, hnew.apply, hok, bind, Except.bind]
          · exact fun hpure => hresult.pure (hnew.pure (hd'.pure hpure))
          · exact fun hguarded =>
              hresult.guarded (hnew.guarded (hd'.guarded hguarded))
          · intro packet conforms hrun
            have hrest := hrun.2 d' step new hmap hstep hnew.apply
            calc
              _ = new.eval (.steady packet conforms) .start :=
                  hresult.eval packet conforms hrest.2
              _ = d'.eval (.steady packet conforms) .start :=
                  (hnew.harmless packet conforms).mpr hrest.1
              _ = d.eval (.steady packet conforms) .start :=
                  hd'.eval packet conforms hrun

/-! `linearize` only moves parentheses. -/

theorem linearize_numeric {d : Data} (h : d.numeric = true) :
    linearize d = d := by
  induction d with
  | op dsc t a b c iha ihb ihc =>
      simp only [Data.numeric, Bool.and_eq_true] at h
      obtain ⟨hdsc, ⟨ha, hb⟩, hc⟩ := h
      cases dsc <;> first
        | contradiction
        | simp only [linearize, iha ha, ihb hb, ihc hc]
  | _ => simp only [linearize]

private theorem linearize_isTest {d : Data} (h : d.isTest = true) :
    linearize d = d := by
  obtain ⟨dsc, x, k, rfl, hdsc, hx, hk⟩ := Data.isTest_cases h
  cases dsc <;> first
    | contradiction
    | simp only [linearize, linearize_numeric hx, linearize_numeric hk]

theorem linearize_eval {v : Vocabulary} {d : Data} (h : Formula v d)
    (env : Env) (base : Base) :
    (linearize d).eval env base = d.eval env base := by
  induction d using linearize.induct with
  | case1 t t' x y z b c ih =>
      obtain ⟨rfl, rfl, ha, hb⟩ := h.or_cases
      obtain ⟨rfl, rfl, hx, hy⟩ := ha.or_cases
      rw [linearize, ih (hx.or (hy.or hb))]
      simp only [Data.eval_logicalOr, Eval.or_assoc]
  | case2 t t' x y z b c ih =>
      obtain ⟨rfl, rfl, ha, hb⟩ := h.and_cases
      obtain ⟨rfl, rfl, hx, hy⟩ := ha.and_cases
      rw [linearize, ih (hx.and (hy.and hb))]
      simp only [Data.eval_logicalAnd, Eval.and_assoc]
  | case3 dsc t a b c hor hand iha ihb ihc =>
      cases h with
      | test h => rw [linearize_isTest (v.isTest h)]
      | conform p => simp only [linearize]
      | count h p => simp only [linearize]
      | not _ ha =>
          rw [linearize.eq_3 _ _ _ _ _ hor hand]
          simp only [Data.eval_logicalNot, iha ha]
      | and ha hb =>
          rw [linearize.eq_3 _ _ _ _ _ hor hand]
          simp only [Data.eval_logicalAnd, iha ha, ihb hb]
      | or ha hb =>
          rw [linearize.eq_3 _ _ _ _ _ hor hand]
          simp only [Data.eval_logicalOr, iha ha, ihb hb]
  | case4 d hor hand hop =>
      cases h with
      | decision d => simp only [linearize]
      | constant h n => simp only [linearize]
      | test h =>
          obtain ⟨dsc, x, k, rfl, _⟩ := Data.isTest_cases (v.isTest h)
          exact (hop _ _ _ _ _ rfl).elim
      | _ => exact (hop _ _ _ _ _ rfl).elim

/-! Where every action stands behind the tests it depends on, no step does
any harm. -/

private theorem eval_of_pure {d : Data} (h : Formula .counting d)
    (hpure : sideEffect d = false) (packet : Packet)
    (conforms : Bucket → Bool) :
    ∃ value, d.eval (.steady packet conforms) .start = .truth value := by
  induction h with
  | test h =>
      obtain ⟨dsc, x, k, rfl, hdsc, _⟩ := Data.isTest_cases h
      exact ⟨_, Data.eval_relational hdsc _ _ _ _ _ _⟩
  | decision => cases hpure
  | conform p => exact ⟨conforms p, rfl⟩
  | count => cases hpure
  | constant h => exact absurd h not_false
  | not h => exact absurd h not_false
  | and _ _ iha ihb =>
      simp only [sideEffect, Bool.or_eq_false_iff] at hpure
      obtain ⟨value, ha⟩ := iha hpure.2.1.1
      obtain ⟨value', hb⟩ := ihb hpure.2.1.2
      rw [Data.eval_logicalAnd, ha, hb]
      cases value
      · exact ⟨false, rfl⟩
      · exact ⟨value', rfl⟩
  | or _ _ iha ihb =>
      simp only [sideEffect, Bool.or_eq_false_iff] at hpure
      obtain ⟨value, ha⟩ := iha hpure.2.1.1
      obtain ⟨value', hb⟩ := ihb hpure.2.1.2
      rw [Data.eval_logicalOr, ha, hb]
      cases value
      · exact ⟨value', rfl⟩
      · exact ⟨true, rfl⟩

/-- A guarded expression that is false has not counted anything. -/
private theorem outcome_of_guarded {d : Data} (h : Formula .counting d)
    (hguarded : d.guarded = true) (packet : Packet)
    (conforms : Bucket → Bool)
    (hfalse : (d.outcome (.steady packet conforms)).2 = .truth false) :
    d.outcome (.steady packet conforms) = ([], .truth false) := by
  induction h with
  | test h =>
      obtain ⟨dsc, x, k, rfl, hdsc, _⟩ := Data.isTest_cases h
      rw [Data.outcome, Data.eval_relational hdsc] at hfalse ⊢
      exact Prod.ext rfl hfalse
  | decision => cases hfalse
  | conform p => exact Prod.ext rfl hfalse
  | count => cases hfalse
  | constant h => exact absurd h not_false
  | not h => exact absurd h not_false
  | and ha _ _ ihb =>
      simp only [Data.guarded, Bool.and_eq_true, Bool.not_eq_true']
        at hguarded
      obtain ⟨value, hvalue⟩ := eval_of_pure ha hguarded.1 packet conforms
      rw [Data.outcome, Data.eval_logicalAnd, hvalue] at hfalse ⊢
      cases value
      · rfl
      · exact ihb hguarded.2.2 hfalse
  | or ha hb iha ihb =>
      simp only [Data.guarded, Bool.and_eq_true] at hguarded
      obtain ⟨log, result, heval⟩ := ha.steady packet conforms .start
      simp only [Data.outcome] at iha
      rw [Data.outcome, Data.eval_logicalOr, heval, Eval.or] at hfalse ⊢
      rw [heval, record_nil] at iha
      rcases result with (_ | _) | d
      · have hlog := iha hguarded.1 rfl
        cases hlog
        exact ihb hguarded.2 hfalse
      · cases hfalse
      · cases hfalse

private theorem harmless_of_guarded {d : Data} (h : Formula .counting d)
    (hguarded : d.guarded = true) {step : Distribution}
    (hstep : findDistribution d = some step) (packet : Packet)
    (conforms : Bucket → Bool) :
    step.Harmless (.steady packet conforms) := by
  unfold findDistribution at hstep
  split at hstep
  · obtain ⟨rfl, rfl, ha, hb⟩ := h.and_cases
    simp only [Data.guarded, Bool.and_eq_true, Bool.not_eq_true'] at hguarded
    obtain ⟨hpure, haguarded, hbguarded⟩ := hguarded
    split at hstep
    · cases hstep
      trivial
    · split at hstep
      · rename_i hleft
        cases hstep
        obtain ⟨t, x, y, z, rfl, rfl⟩ := distributeLeft_cases hleft
        obtain ⟨rfl, rfl, hx, hy⟩ := ha.or_cases
        simp only [sideEffect, Bool.or_eq_false_iff] at hpure
        obtain ⟨value, hvalue⟩ := eval_of_pure hy hpure.2.1.2 packet conforms
        intro _ hfalse
        have hb' := outcome_of_guarded hb hbguarded packet conforms hfalse
        rw [Data.outcome, Data.eval_logicalAnd, hvalue]
        cases value
        · rfl
        · exact hb'
      · obtain ⟨t, x, y, z, rfl, rfl⟩ := distributeRight_cases hstep
        obtain ⟨value, hvalue⟩ := eval_of_pure ha hpure packet conforms
        intro _
        rw [Data.outcome, hvalue]
        rfl
  · cases hstep

private theorem mapOperands_op {f : Data → Except Error Data} {dsc : OpDsc}
    {t : DataType} {a b c d : Data}
    (h : mapOperands f (.op dsc t a b c) = .ok d) :
    ∃ a' b' c', d = .op dsc t a' b' c' := by
  simp only [mapOperands, bind, Except.bind] at h
  split at h
  · cases h
  split at h
  · cases h
  split at h
  · cases h
  cases h
  exact ⟨_, _, _, rfl⟩

private theorem harmlessRun_of_no_and (env : Env) {fuel : Nat} {d : Data}
    (h : d.contains .logicalAnd = false) : HarmlessRun env fuel d := by
  induction fuel generalizing d with
  | zero => trivial
  | succ fuel ih =>
      cases d with
      | op dsc t a b c =>
          simp only [Data.contains, Bool.or_eq_false_iff,
            beq_eq_false_iff_ne] at h
          obtain ⟨hdsc, ⟨ha, hb⟩, _⟩ := h
          refine ⟨⟨ih ha, ih hb⟩, ?_⟩
          intro d' step new hmap hstep
          obtain ⟨a', b', c', rfl⟩ := mapOperands_op hmap
          rw [findDistribution_op hdsc] at hstep
          cases hstep
      | _ =>
          refine ⟨trivial, ?_⟩
          intro d' step new hmap hstep
          cases hmap
          cases hstep

theorem harmlessRun_of_guarded {fuel : Nat} {d : Data}
    (h : Formula .counting d) (hguarded : d.guarded = true)
    (hfuel : d.orWeight ≤ fuel) (packet : Packet)
    (conforms : Bucket → Bool) :
    HarmlessRun (.steady packet conforms) fuel d := by
  induction fuel generalizing d with
  | zero => trivial
  | succ fuel ih =>
      refine ⟨?_, ?_⟩
      · have hweight := d.two_le_orWeight
        cases h with
        | test h =>
            obtain ⟨dsc, x, k, rfl, _, hx, hk⟩ := Data.isTest_cases h
            exact ⟨harmlessRun_of_no_and _ (Data.contains_numeric hx rfl),
              harmlessRun_of_no_and _ (Data.contains_numeric hk rfl)⟩
        | decision => trivial
        | conform p =>
            exact ⟨harmlessRun_of_no_and _ rfl, harmlessRun_of_no_and _ rfl⟩
        | count _ p =>
            exact ⟨harmlessRun_of_no_and _ rfl, harmlessRun_of_no_and _ rfl⟩
        | constant h => exact absurd h not_false
        | not h => exact absurd h not_false
        | and ha hb =>
            rename_i a b
            have hawt := a.two_le_orWeight
            have hbwt := b.two_le_orWeight
            have halt : a.orWeight < a.orWeight * b.orWeight :=
              (Nat.lt_mul_iff_one_lt_right (by omega)).mpr (by omega)
            have hblt : b.orWeight < a.orWeight * b.orWeight :=
              (Nat.lt_mul_iff_one_lt_left (by omega)).mpr (by omega)
            simp only [Data.orWeight] at hfuel
            simp only [Data.guarded, Bool.and_eq_true] at hguarded
            exact ⟨ih ha hguarded.2.1 (by omega),
              ih hb hguarded.2.2 (by omega)⟩
        | or ha hb =>
            simp only [Data.orWeight] at hfuel
            simp only [Data.guarded, Bool.and_eq_true] at hguarded
            exact ⟨ih ha hguarded.1 (by omega), ih hb hguarded.2 (by omega)⟩
      · intro d' step new hmap hstep happly
        obtain ⟨d'', hmap', hd'⟩ := mapOperands_bubbled h hfuel
          fun h hfuel => bubbleOr_bubbled h hfuel
        cases hmap.symm.trans hmap'
        have hguarded' := hd'.guarded hguarded
        obtain ⟨new', hnew⟩ := findDistribution_correct hd'.formula hstep
        cases happly.symm.trans hnew.apply
        have hlt := hnew.weight
        have hle := hd'.weight
        exact ⟨harmless_of_guarded hd'.formula hguarded' hstep packet conforms,
          ih hnew.formula (hnew.guarded hguarded') (by omega)⟩

/-- Normalization ends, and it keeps what is decided and counted wherever
none of its steps does harm. -/
theorem iflibNormalize_outcome {d : Data} (h : Formula .counting d) :
    ∃ d', iflibNormalize d = .ok d' ∧
      ∀ packet conforms,
        HarmlessRun (.steady packet conforms) d.orWeight d →
        d'.outcome (.steady packet conforms) =
          d.outcome (.steady packet conforms) := by
  obtain ⟨d', hok, hd'⟩ := bubbleOr_bubbled h (Nat.le_refl _)
  refine ⟨linearize d', ?_, ?_⟩
  · simp only [iflibNormalize, hok, bind, Except.bind]
  · intro packet conforms hrun
    rw [Data.outcome, linearize_eval hd'.formula,
      hd'.eval packet conforms hrun]
    rfl

theorem iflibNormalize_outcome_guarded :
    let d := Data.logicalAnd (.logicalOr (.conform 1) (.conform 2))
      (.logicalOr (.logicalAnd (.conform 3) (.count 0)) (.decision .drDrop))
    ∃ d', iflibNormalize d = .ok d' ∧ ∀ packet conforms,
      d'.outcome (.steady packet conforms) =
        d.outcome (.steady packet conforms) := by
  intro d
  have hd : Formula .counting d :=
    .and (.or (.conform 1) (.conform 2))
      (.or (.and (.conform 3) (.count trivial 0)) (.decision .drDrop))
  obtain ⟨d', hok, hsound⟩ := iflibNormalize_outcome hd
  refine ⟨d', hok, fun packet conforms => hsound packet conforms ?_⟩
  exact harmlessRun_of_guarded hd rfl (Nat.le_refl _) packet conforms

/-- The bucket is counted once more after the first repetition failed. -/
theorem iflibNormalize_counts_twice :
    let d := Data.logicalAnd (.logicalOr (.conform 1) (.conform 2))
      (.logicalAnd (.count 0) (.conform 3))
    let env := Env.steady (fun _ _ => false) fun p => p != 3
    Formula .counting d ∧ d.outcome env = ([0], .truth false) ∧
      (iflibNormalize d).map (fun d' => d'.outcome env) =
        .ok ([0, 0], .truth false) := by
  intro d env
  refine ⟨.and (.or (.conform 1) (.conform 2))
    (.and (.count trivial 0) (.conform 3)), rfl, ?_⟩
  have hbubble : bubbleOr d.orWeight d =
      .ok (.logicalOr
        (.logicalAnd (.conform 1) (.logicalAnd (.count 0) (.conform 3)))
        (.logicalAnd (.conform 2) (.logicalAnd (.count 0) (.conform 3)))) := by
    rfl
  simp only [iflibNormalize, hbubble, bind, Except.bind, linearize]
  rfl

end Tcng
