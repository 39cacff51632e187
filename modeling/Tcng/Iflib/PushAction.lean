import Tcng.Iflib.Chains

/-! Actions pushed to the ends of `&&` chains (`push_action` of
`iflib_act.c`). -/

namespace Tcng

open ShortCircuit ShortCircuit.Eval

namespace Act

/-- Copies `attach` in front of every action tree. -/
def attachPrev (attach : Data) (d : Data) : Except Error Data :=
  if actionTree d then
    if selfContained attach ≠ .scYes then andOrEval .logicalOr attach d
    else .ok attach
  else
    match d with
    | .op dsc t a b c => do
        let a ← attachPrev attach a
        let b ← attachPrev attach b
        let c ← attachPrev attach c
        .ok (.op dsc t a b c)
    | d => .ok d

/-- The place `cut` points to, as the chain with a hole there and what stands
in the hole. -/
def findCut (d : Data) : (Data → Data) × Data :=
  if actionTree d then (id, d)
  else
    match d with
    | .op .logicalAnd t a b c =>
        let (fill, p) := findCut b
        (fun e => .op .logicalAnd t a (fill e) c, p)
    | d => (id, d)

/-- Puts every alternative into the hole of `cond`. -/
def preconditionOr (cond : Data → Data) (d : Data) : Data :=
  match d with
  | .op .logicalOr t a b c =>
      if actionTree d then cond d
      else .op .logicalOr t (cond a) (preconditionOr cond b) c
  | d => cond d

/-- `x` as the last alternative. -/
def appendOr (d x : Data) : Except Error Data :=
  match d with
  | .op .logicalOr t a b c => do
      let b ← appendOr b x
      .ok (.op .logicalOr t a b c)
  | d => andOrEval .logicalOr d x

def bubbleOr (d : Data) : Except Error Data :=
  match d with
  | .op .logicalOr _ a x _ =>
      let (cond, p) := findCut a
      if selfContained p = .scYes then .ok d
      else do
        let xCond ← attachPrev p (preconditionOr cond x)
        if selfContained xCond = .scYes then .ok xCond
        else appendOr xCond x
  | _ => .error (.assertion "d->op && d->op->dsc == &op_logical_or")

end Act

/-- A conjunction of tests. -/
inductive Static : Data → Prop
  | test {d : Data} (h : d.isTest = true) : Static d
  | and {a b : Data} (ha : Static a) (hb : Static b) :
      Static (.logicalAnd a b)

theorem Static.formula {d : Data} (h : Static d) : Formula .plain d := by
  induction h with
  | test h => exact .test h
  | and _ _ iha ihb => exact .and iha ihb

theorem Static.result {d : Data} (h : Static d) (env : Env) :
    ∃ value, d.result env = .truth value := by
  induction h with
  | test h =>
      obtain ⟨dsc, x, k, rfl, hdsc, _⟩ := Data.isTest_cases h
      rw [Data.result, Data.outcome, Data.eval_relational hdsc]
      exact ⟨_, rfl⟩
  | and ha _ iha ihb =>
      obtain ⟨value, ha'⟩ := iha
      rw [ha.formula.result_and, ha']
      cases value
      · exact ⟨false, rfl⟩
      · exact ihb

theorem Static.actionTree {d : Data} (h : Static d) :
    actionTree d = false := by
  induction h with
  | test h =>
      obtain ⟨dsc, x, k, rfl, hdsc, _⟩ := Data.isTest_cases h
      cases dsc <;> first | contradiction | rfl
  | and _ _ iha => simp [Tcng.actionTree, iha]

theorem sideEffect_numeric {d : Data} (h : d.numeric = true) :
    sideEffect d = false := by
  induction d with
  | op dsc t a b c iha ihb ihc =>
      simp only [Data.numeric, Bool.and_eq_true] at h
      obtain ⟨hdsc, ⟨ha, hb⟩, hc⟩ := h
      cases dsc <;> first
        | contradiction
        | simp [sideEffect, iha ha, ihb hb, ihc hc]
  | decision => cases h
  | _ => rfl

theorem Static.sideEffect {d : Data} (h : Static d) :
    sideEffect d = false := by
  induction h with
  | test h =>
      obtain ⟨dsc, x, k, rfl, hdsc, hx, hk⟩ := Data.isTest_cases h
      cases dsc <;> first
        | contradiction
        | simp [Tcng.sideEffect, sideEffect_numeric hx, sideEffect_numeric hk]
  | and _ _ iha ihb => simp [Tcng.sideEffect, iha, ihb]

theorem attachPrev_numeric (attach : Data) {d : Data}
    (h : d.numeric = true) : Act.attachPrev attach d = .ok d := by
  induction d with
  | op dsc t a b c iha ihb ihc =>
      simp only [Data.numeric, Bool.and_eq_true] at h
      obtain ⟨hdsc, ⟨ha, hb⟩, hc⟩ := h
      have htree : actionTree (.op dsc t a b c) = false := by
        cases dsc <;> first | contradiction | rfl
      rw [Act.attachPrev, if_neg (by simp [htree])]
      simp only [iha ha, ihb hb, ihc hc, bind, Except.bind]
  | decision => cases h
  | _ => rfl

theorem Static.attachPrev {d : Data} (h : Static d) (attach : Data) :
    Act.attachPrev attach d = .ok d := by
  induction h with
  | test h =>
      have htree := (Static.test h).actionTree
      obtain ⟨dsc, x, k, rfl, hdsc, hx, hk⟩ := Data.isTest_cases h
      rw [Act.attachPrev, if_neg (by simp [htree])]
      simp only [attachPrev_numeric attach hx, attachPrev_numeric attach hk,
        attachPrev_numeric attach (show Data.none.numeric = true from rfl),
        bind, Except.bind]
  | and ha hb iha ihb =>
      have htree := (Static.and ha hb).actionTree
      rw [Act.attachPrev, if_neg (by simp [htree])]
      simp only [iha, ihb,
        attachPrev_numeric attach (show Data.none.numeric = true from rfl),
        bind, Except.bind]

/-! Alternatives whose tests lead to action trees. -/

/-- `reached` tells whether evaluation meets an action tree if everything in
front of it is false. -/
inductive Covered (env : Env) : Data → Prop → Prop
  | action {d : Data} (h : Formula .plain d) (htree : actionTree d = true) :
      Covered env d True
  | guard {a b : Data} {reached : Prop} (ha : Static a)
      (hb : Covered env b reached) :
      Covered env (.logicalAnd a b) (a.result env = .truth true ∧ reached)
  | or {a b : Data} {reached reached' : Prop} (ha : Covered env a reached)
      (hb : Covered env b reached') :
      Covered env (.logicalOr a b) (reached ∨ reached')

section

variable {env : Env} {d : Data} {reached : Prop}

theorem Covered.formula (h : Covered env d reached) : Formula .plain d := by
  induction h with
  | action h => exact h
  | guard ha _ ihb => exact ha.formula.and ihb
  | or _ _ iha ihb => exact .or iha ihb

theorem Covered.cast {reached' : Prop} (h : Covered env d reached)
    (hiff : reached ↔ reached') : Covered env d reached' :=
  propext hiff ▸ h

/-- `cond` puts tests in front of an expression; `guard` tells whether they
hold. -/
structure Guarding (env : Env) (cond : Data → Data) (guard : Prop) : Prop where
  covered : ∀ {d reached}, Covered env d reached →
    Covered env (cond d) (guard ∧ reached)
  of_guard : guard → ∀ d, (cond d).result env = d.result env
  of_not_guard : ¬guard → ∀ d, (cond d).result env = .truth false

theorem Guarding.id (env : Env) : Guarding env id True where
  covered h := h.cast (by simp)
  of_guard _ _ := rfl
  of_not_guard h := absurd trivial h

theorem Guarding.and {cond : Data → Data} {guard : Prop} {a : Data}
    (ha : Static a) (h : Guarding env cond guard) :
    Guarding env (fun d => .logicalAnd a (cond d))
      (a.result env = .truth true ∧ guard) where
  covered hd := (Covered.guard ha (h.covered hd)).cast (by rw [and_assoc])
  of_guard hguard d := by
    rw [ha.formula.result_and, hguard.1, Result.true_and,
      h.of_guard hguard.2]
  of_not_guard hnot d := by
    obtain ⟨value, hvalue⟩ := ha.result env
    rw [ha.formula.result_and, hvalue]
    cases value with
    | false => rfl
    | true => exact h.of_not_guard (fun hguard => hnot ⟨hvalue, hguard⟩) d

/-- Tests in front of one action tree. -/
inductive Guarded : Data → Prop
  | action {d : Data} (h : Formula .plain d) (htree : actionTree d = true) :
      Guarded d
  | guard {a b : Data} (ha : Static a) (hb : Guarded b) :
      Guarded (.logicalAnd a b)

/-- The chain is its condition in front of what stands in the hole. -/
structure Cut (env : Env) (d : Data) (cut : (Data → Data) × Data)
    (guard : Prop) : Prop where
  guarding : Guarding env cut.1 guard
  formula : Formula .plain cut.2
  actionTree : actionTree cut.2 = true
  fill : cut.1 cut.2 = d

theorem Guarded.findCut (h : Guarded d) (env : Env) :
    ∃ guard, Cut env d (Act.findCut d) guard := by
  induction h with
  | action h htree =>
      rw [Act.findCut.eq_def, if_pos htree]
      exact ⟨True, .id env, h, htree, rfl⟩
  | guard ha hb ih =>
      rename_i a b
      have htree : Tcng.actionTree (.logicalAnd a b) = false := by
        simp [Tcng.actionTree, ha.actionTree]
      obtain ⟨guard, hcut⟩ := ih
      rw [Act.findCut, if_neg (by simp [htree])]
      refine ⟨_, hcut.guarding.and ha, hcut.formula, hcut.actionTree, ?_⟩
      exact congrArg (Data.logicalAnd a) hcut.fill

theorem Cut.covered {cut : (Data → Data) × Data} {guard : Prop}
    (h : Cut env d cut guard) : Covered env d guard := by
  have hcovered := h.guarding.covered (.action h.formula h.actionTree)
  rw [h.fill] at hcovered
  exact hcovered.cast (by simp)

theorem Cut.result {cut : (Data → Data) × Data} {guard : Prop}
    (h : Cut env d cut guard) :
    (guard → d.result env = cut.2.result env) ∧
      (¬guard → d.result env = .truth false) := by
  constructor
  · intro hguard
    have heq := h.guarding.of_guard hguard cut.2
    rwa [h.fill] at heq
  · intro hnot
    have heq := h.guarding.of_not_guard hnot cut.2
    rwa [h.fill] at heq

end

/-! The `&&` chains. -/

def Data.isAction (d : Data) : Bool := d.isConform || d.isDecision

/-- No conform test has both a test and another conform test behind it, unless
a decision is there as well. -/
def settled : List Data → Bool
  | [] => true
  | x :: xs =>
      settled xs &&
        (!(x.isConform && (xs.any Data.isTest && xs.any Data.isConform)) ||
          xs.any Data.isDecision)

/-- What becomes of an `&&` chain of the elements `xs`. -/
structure PushedChain (xs : List Data) (d d' : Data) : Prop where
  static : xs.any Data.isAction = false → Static d'
  guarded : xs.any Data.isAction = true → Guarded d'
  actionTree : actionTree d' = !xs.any Data.isTest
  sideEffect : sideEffect d' = xs.any Data.isDecision
  result : ∀ env, d'.result env = d.result env

theorem PushedChain.formula {xs : List Data} {d d' : Data}
    (h : PushedChain xs d d') : Formula .plain d' := by
  cases haction : xs.any Data.isAction with
  | false => exact (h.static haction).formula
  | true =>
      obtain ⟨guard, hcut⟩ := (h.guarded haction).findCut
        (.steady (fun _ _ => false) fun _ => false)
      exact hcut.covered.formula

/-- An `&&` chain as the rest of the compiler expects it: something happens in
it, and its conform tests are settled. -/
structure ActionChain where
  xs : List Data
  last : Data
  elements : ∀ x ∈ xs ++ [last], x.isElement = true
  settled : settled (xs ++ [last]) = true
  action : (xs ++ [last]).any Data.isAction = true

def ActionChain.expr (chain : ActionChain) : Data :=
  andChain chain.xs chain.last

theorem ActionChain.formula (chain : ActionChain) :
    Formula .plain chain.expr := by
  apply formula_andChain
  · intro x hx
    exact Data.formula_of_isElement
      (chain.elements x (List.mem_append_left _ hx))
  · exact Data.formula_of_isElement (chain.elements _ (by simp))

end Tcng
