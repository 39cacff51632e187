import Tcng.Iflib.ActionDb
import Tcng.Semantics

/-! What the trees of `add_actions` and `repeated_actions` decide. -/

namespace Tcng

open ShortCircuit ShortCircuit.Eval

namespace Action

/-- Evaluation where the result of a test may depend on what was counted
before. -/
def eval (conforms : List Bucket → Bucket → Bool) : Action → Eval
  | conform p c0 c1 => fun counted =>
      if conforms counted p then c1.eval conforms counted
      else c0.eval conforms counted
  | count p c1 => fun counted => c1.eval conforms (counted ++ [p])
  | .class c => .decide (.drClass c)
  | drop => .decide .drDrop
  | unspec => .decide .drContinue

/-- An action tree comes to a decision. -/
theorem eval_decided (conforms : List Bucket → Bucket → Bool) (a : Action)
    (counted : List Bucket) :
    ∃ counted' decision,
      a.eval conforms counted = (counted', .decided decision) := by
  induction a generalizing counted with
  | conform p c0 c1 ih0 ih1 =>
      simp only [eval]
      split
      · exact ih1 counted
      · exact ih0 counted
  | count p c1 ih1 => exact ih1 (counted ++ [p])
  | «class» | drop | unspec => exact ⟨counted, _, rfl⟩

end Action

/-! ## Building the tree -/

/-- What comes after false; `lost` stands for all that `add_actions` has
forgotten. -/
def otherwiseEval (env : Env) (otherwise : Data) (lost : Eval) : Eval :=
  (otherwise.eval env .start).branch lost lost

/-- What comes after true. -/
def nextEval (env : Env) (next otherwise : Data) (lost : Eval) : Eval :=
  if next = .none then lost
  else (next.eval env .start).branch lost (otherwiseEval env otherwise lost)

/-- The tree decides what `d`, `next` and `otherwise` do, and never depends on
what was forgotten. -/
def Builds (env : Env) (d next otherwise : Data) (action : Action) : Prop :=
  ∀ lost : Eval, action.eval env.conforms =
    (d.eval env .start).branch (nextEval env next otherwise lost)
      (otherwiseEval env otherwise lost)

private theorem eval_none (env : Env) (base : Base) :
    Data.none.eval env base = .truth false := rfl

private theorem addActions_none {next otherwise : Data} {action : Action} :
    addActions .none next otherwise ≠ .ok action := by
  rw [addActions]
  · rintro ⟨⟩
  all_goals
    intros
    contradiction

namespace Builds

variable {env : Env} {a b c next otherwise : Data} {t : DataType}
  {action c0 c1 : Action}

/-- `||` forgets both continuations. -/
private theorem or (h : Builds env a .none b action) :
    Builds env (.op .logicalOr t a b c) next otherwise action := by
  intro lost
  rw [Data.eval_logicalOr, branch_or]
  funext counted
  have hlost := fun lost => congrFun (h lost) counted
  simp only [nextEval, otherwiseEval, if_true] at hlost
  rcases ha : a.eval env .start counted with ⟨counted', (_ | _) | d⟩
  · simp only [branch, ha] at hlost ⊢
    rcases hb : b.eval env .start counted' with ⟨counted'', (_ | _) | d⟩
    · simp only [hb] at hlost
      exact hlost (otherwiseEval env otherwise lost)
    · simp only [hb] at hlost
      exact hlost (nextEval env next otherwise lost)
    · simp only [hb] at hlost
      exact hlost lost
  · simp only [branch, ha] at hlost ⊢
    exact hlost (nextEval env next otherwise lost)
  · simp only [branch, ha] at hlost ⊢
    exact hlost lost

/-- `&&` forgets what would come after both operands. -/
private theorem and (h : Builds env a b otherwise action) :
    Builds env (.op .logicalAnd t a b c) next otherwise action := by
  intro lost
  rw [Data.eval_logicalAnd, branch_and]
  funext counted
  have hlost := fun lost => congrFun (h lost) counted
  rcases ha : a.eval env .start counted with ⟨counted', (_ | _) | d⟩
  · simp only [branch, ha] at hlost ⊢
    exact hlost lost
  · simp only [branch, ha, nextEval] at hlost ⊢
    by_cases hnone : b = .none
    · subst hnone
      exact hlost (otherwiseEval env otherwise lost)
    · simp only [if_neg hnone, branch] at hlost
      rcases hb : b.eval env .start counted' with ⟨counted'', (_ | _) | d⟩
      · simp only [hb] at hlost
        exact hlost lost
      · simp only [hb] at hlost
        exact hlost (nextEval env next otherwise lost)
      · simp only [hb] at hlost
        exact hlost lost
  · simp only [branch, ha] at hlost ⊢
    exact hlost lost

private theorem conform {p : Bucket} (hnext : next ≠ .none)
    (h1 : Builds env next .none otherwise c1)
    (h0 : Builds env otherwise .none .none c0) :
    Builds env (.op .conform t (.police p) b c) next otherwise
      (.conform p c0 c1) := by
  intro lost
  have hc1 := h1 lost
  have hc0 := h0 lost
  simp only [nextEval, otherwiseEval, if_true, eval_none, branch_false] at hc0
  simp only [nextEval, if_true] at hc1
  funext counted
  simp only [Action.eval, Data.eval, branch, nextEval, if_neg hnext]
  cases env.conforms counted p with
  | false => exact congrFun hc0 counted
  | true => exact congrFun hc1 counted

private theorem count {p : Bucket} (hnext : next ≠ .none)
    (h1 : Builds env next .none otherwise c1) :
    Builds env (.op .count t (.police p) b c) next otherwise
      (.count p c1) := by
  intro lost
  have hc1 := h1 lost
  simp only [nextEval, if_true] at hc1
  funext counted
  simp only [Action.eval, Data.eval, branch, nextEval, if_neg hnext]
  exact congrFun hc1 (counted ++ [p])

private theorem decision {d : Decision} (h : makeLeaf d = .ok action) :
    Builds env (.decision d) next otherwise action := by
  intro lost
  rw [Data.eval_decision, branch_decide]
  cases d with
  | drReclassify => cases h
  | _ =>
      cases h
      rfl

end Builds

/-- Where the construction succeeds, nothing that was forgotten matters. -/
theorem addActions_builds (env : Env) {d next otherwise : Data}
    {action : Action} (h : addActions d next otherwise = .ok action) :
    Builds env d next otherwise action := by
  induction d, next, otherwise using addActions.induct
    generalizing action with
  | case1 next otherwise t a b c ih =>
      rw [addActions] at h
      exact (ih h).or
  | case2 next otherwise t a b c ih =>
      rw [addActions] at h
      exact (ih h).and
  | case3 next otherwise t p b c ih1 ih0 =>
      rw [addActions] at h
      obtain ⟨c1, hc1, h⟩ := bind_eq_ok.mp h
      obtain ⟨c0, hc0, h⟩ := bind_eq_ok.mp h
      cases h
      apply Builds.conform
      · rintro rfl
        exact addActions_none hc1
      · exact ih1 hc1
      · exact ih0 hc0
  | case4 next otherwise t p b c ih1 =>
      rw [addActions] at h
      obtain ⟨c1, hc1, h⟩ := bind_eq_ok.mp h
      cases h
      apply Builds.count
      · rintro rfl
        exact addActions_none hc1
      · exact ih1 hc1
  | case5 next otherwise decision =>
      rw [addActions] at h
      exact .decision h
  | case6 =>
      rw [addActions] at h
      cases h
      all_goals assumption

/-- The tree counts and decides what the expression does. -/
theorem addActions_outcome {d : Data} {action : Action}
    (h : addActions d .none .none = .ok action) (env : Env) :
    ∃ counted decision, d.outcome env = (counted, .decided decision) ∧
      action.eval env.conforms [] = (counted, .decided decision) := by
  have hbuilds := addActions_builds env h (.truth true)
  obtain ⟨counted, decision, hdecided⟩ := action.eval_decided env.conforms []
  refine ⟨counted, decision, ?_, hdecided⟩
  simp only [nextEval, otherwiseEval, if_true, eval_none, branch_false]
    at hbuilds
  have hrun := congrFun hbuilds []
  rw [hdecided] at hrun
  simp only [branch] at hrun
  rw [Data.outcome]
  rcases hd : d.eval env .start [] with ⟨counted', v | d'⟩
  · rw [hd] at hrun
    cases v <;> cases hrun
  · rw [hd] at hrun
    exact hrun.symm

/-- A policer counts what conforms and drops the rest. -/
theorem addActions_outcome_police :
    ∃ counted decision,
      (Data.logicalOr (.logicalAnd (.conform 1)
        (.logicalAnd (.count 1) (.decision (.drClass 2))))
        (.decision .drDrop)).outcome (.steady (fun _ _ => false)
          fun _ => true) = (counted, .decided decision) ∧
      (Action.conform 1 .drop (.count 1 (.class 2))).eval
        (fun _ _ => true) [] = (counted, .decided decision) :=
  addActions_outcome (by simp [addActions, makeLeaf, bind, Except.bind]) _

/-! ## Repeated tests -/

/-- What lies between a node and the root. -/
inductive Passed
  | tested (p : Bucket) (value : Bool)
  | counted (p : Bucket)
  deriving DecidableEq, Repr

namespace Passed

/-- The tests alone, which is all `repeated_actions` looks at. -/
def tests : List Passed → List (Bucket × Bool)
  | [] => []
  | tested p value :: path => (p, value) :: tests path
  | counted _ :: path => tests path

/-- The result of the last test of `p`, if `p` was counted since. -/
def outdated (p : Bucket) : List Passed → Option Bool
  | [] => none
  | tested q _ :: path => if q = p then none else outdated p path
  | counted q :: path =>
      if q = p then (tests path).lookup p else outdated p path

end Passed

/-- A result only changes where its bucket is counted. -/
def ChangesByCount (conforms : List Bucket → Bucket → Bool) : Prop :=
  ∀ counted p q, q ≠ p → conforms (counted ++ [q]) p = conforms counted p

/-- Where a bucket is tested again after it was counted, the result is still
that of the earlier test. -/
def TestsAgree (conforms : List Bucket → Bucket → Bool) :
    List Passed → List Bucket → Action → Prop
  | path, counted, .conform p c0 c1 =>
      (∀ value, Passed.outdated p path = some value →
        conforms counted p = value) ∧
      if conforms counted p then
        TestsAgree conforms (.tested p true :: path) counted c1
      else TestsAgree conforms (.tested p false :: path) counted c0
  | path, counted, .count p c1 =>
      TestsAgree conforms (.counted p :: path) (counted ++ [p]) c1
  | _, _, _ => True

namespace Passed

/-- An outdated result is one of a test. -/
private theorem lookup_of_outdated {p : Bucket} {path : List Passed}
    {value : Bool} (h : outdated p path = some value) :
    (tests path).lookup p = some value := by
  induction path with
  | nil => cases h
  | cons passed path ih =>
      cases passed with
      | tested q v =>
          simp only [outdated] at h
          split at h
          · cases h
          · rename_i hne
            have hpq : ¬p = q := fun heq => hne heq.symm
            simpa [tests, List.lookup_cons, beq_eq_false_iff_ne.mpr hpq]
              using ih h
      | counted q =>
          simp only [outdated] at h
          split at h
          · exact h
          · exact ih h

end Passed

/-- The tests that are not outdated tell the present results. -/
private def Known (conforms : List Bucket → Bucket → Bool)
    (path : List Passed) (counted : List Bucket) : Prop :=
  ∀ p value, (Passed.tests path).lookup p = some value →
    Passed.outdated p path = none → conforms counted p = value

section

variable {conforms : List Bucket → Bucket → Bool} {path : List Passed}
  {counted : List Bucket}

private theorem Known.test (h : Known conforms path counted) {p : Bucket}
    {value : Bool} (hvalue : conforms counted p = value) :
    Known conforms (.tested p value :: path) counted := by
  intro q v hlookup houtdated
  simp only [Passed.tests, List.lookup_cons] at hlookup
  simp only [Passed.outdated] at houtdated
  by_cases hqp : q = p
  · subst hqp
    simp only [beq_self_eq_true, Option.some.injEq] at hlookup
    rw [hvalue, hlookup]
  · rw [beq_eq_false_iff_ne.mpr hqp] at hlookup
    rw [if_neg fun heq => hqp heq.symm] at houtdated
    exact h q v hlookup houtdated

private theorem Known.count (hchanges : ChangesByCount conforms)
    (h : Known conforms path counted) (p : Bucket) :
    Known conforms (.counted p :: path) (counted ++ [p]) := by
  intro q v hlookup houtdated
  simp only [Passed.tests] at hlookup
  simp only [Passed.outdated] at houtdated
  split at houtdated
  · rw [hlookup] at houtdated
    cases houtdated
  · rename_i hne
    rw [hchanges counted q p hne]
    exact h q v hlookup houtdated

/-- A test that is repeated with the same result tells nothing new. -/
private theorem repeatedActions_congr {branches branches' : List (Bucket × Bool)}
    (h : ∀ p, branches.lookup p = branches'.lookup p) (a : Action) :
    repeatedActions branches a = repeatedActions branches' a := by
  induction a generalizing branches branches' with
  | conform p c0 c1 ih0 ih1 =>
      have hcons : ∀ value q, List.lookup q ((p, value) :: branches) =
          List.lookup q ((p, value) :: branches') := by
        intro value q
        simp only [List.lookup_cons, h q]
      simp only [repeatedActions, h p, ih0 h, ih1 h, ih0 (hcons false),
        ih1 (hcons true)]
  | count p c1 ih1 => simp only [repeatedActions, ih1 h]
  | _ => rfl

private theorem repeatedActions_known {p : Bucket} {value : Bool}
    (h : (Passed.tests path).lookup p = some value) (a : Action) :
    repeatedActions (Passed.tests path) a =
      repeatedActions (Passed.tests (.tested p value :: path)) a := by
  apply repeatedActions_congr
  intro q
  simp only [Passed.tests, List.lookup_cons]
  by_cases hqp : q = p
  · subst hqp
    simp [h]
  · simp [beq_eq_false_iff_ne.mpr hqp]

private theorem eval_of_testsAgree (hchanges : ChangesByCount conforms)
    (a : Action) (hknown : Known conforms path counted)
    (hagree : TestsAgree conforms path counted a) :
    (repeatedActions (Passed.tests path) a).eval conforms counted =
      a.eval conforms counted := by
  induction a generalizing path counted with
  | conform p c0 c1 ih0 ih1 =>
      obtain ⟨hsame, hnext⟩ := hagree
      cases hlookup : (Passed.tests path).lookup p with
      | none =>
          cases hp : conforms counted p with
          | false =>
              simp only [hp, Bool.false_eq_true, if_false] at hnext
              simp only [repeatedActions, hlookup, Action.eval, hp,
                Bool.false_eq_true, if_false]
              exact ih0 (hknown.test hp) hnext
          | true =>
              simp only [hp, if_true] at hnext
              simp only [repeatedActions, hlookup, Action.eval, hp, if_true]
              exact ih1 (hknown.test hp) hnext
      | some value =>
          have hp : conforms counted p = value := by
            cases houtdated : Passed.outdated p path with
            | none => exact hknown p value hlookup houtdated
            | some v =>
                have hv := Passed.lookup_of_outdated houtdated
                rw [hlookup, Option.some.injEq] at hv
                rw [hsame v houtdated, hv]
          cases value with
          | false =>
              simp only [hp, Bool.false_eq_true, if_false] at hnext
              simp only [repeatedActions, hlookup, Action.eval, hp,
                Bool.false_eq_true, if_false]
              rw [repeatedActions_known hlookup]
              exact ih0 (hknown.test hp) hnext
          | true =>
              simp only [hp, if_true] at hnext
              simp only [repeatedActions, hlookup, Action.eval, hp, if_true]
              rw [repeatedActions_known hlookup]
              exact ih1 (hknown.test hp) hnext
  | count p c1 ih1 =>
      have hstep := ih1 (hknown.count hchanges p) hagree
      exact hstep
  | _ => rfl

end

/-! ### Different leaves -/

namespace Action

def leaves : Action → List Decision
  | conform _ c0 c1 => c0.leaves ++ c1.leaves
  | count _ c1 => c1.leaves
  | .class c => [.drClass c]
  | drop => [.drDrop]
  | unspec => [.drContinue]

theorem mem_leaves_of_eval {conforms : List Bucket → Bucket → Bool}
    {a : Action} {counted counted' : List Bucket} {d : Decision}
    (h : a.eval conforms counted = (counted', .decided d)) :
    d ∈ a.leaves := by
  induction a generalizing counted with
  | conform p c0 c1 ih0 ih1 =>
      simp only [eval] at h
      split at h
      · exact List.mem_append_right _ (ih1 h)
      · exact List.mem_append_left _ (ih0 h)
  | count p c1 ih1 => exact ih1 h
  | «class» | drop | unspec =>
      cases h
      exact List.mem_singleton_self _

end Action

theorem leaves_repeatedActions (branches : List (Bucket × Bool))
    (a : Action) : (repeatedActions branches a).leaves ⊆ a.leaves := by
  induction a generalizing branches with
  | conform p c0 c1 ih0 ih1 =>
      simp only [repeatedActions]
      split
      · exact List.subset_append_of_subset_left _ (ih0 _)
      · exact List.subset_append_of_subset_right _ (ih1 _)
      · exact List.append_subset.mpr
          ⟨List.subset_append_of_subset_left _ (ih0 _),
            List.subset_append_of_subset_right _ (ih1 _)⟩
  | count p c1 ih1 => exact ih1 branches
  | _ => exact List.Subset.refl _

/-- Equal results come from the same branch if no leaf occurs twice. -/
private theorem eval_ne_of_disjoint {conforms : List Bucket → Bucket → Bool}
    {a b : Action} (hdisjoint : List.Disjoint a.leaves b.leaves)
    (branches : List (Bucket × Bool)) (counted : List Bucket) :
    (repeatedActions branches a).eval conforms counted ≠
      b.eval conforms counted := by
  intro heq
  obtain ⟨counted', d, hd⟩ := b.eval_decided conforms counted
  have ha := leaves_repeatedActions branches a
    (Action.mem_leaves_of_eval (heq.trans hd))
  exact hdisjoint ha (Action.mem_leaves_of_eval hd)

private theorem testsAgree_of_eval {conforms : List Bucket → Bucket → Bool}
    {path : List Passed} {counted : List Bucket} {a : Action}
    (hnodup : a.leaves.Nodup)
    (heval : (repeatedActions (Passed.tests path) a).eval conforms counted =
      a.eval conforms counted) :
    TestsAgree conforms path counted a := by
  induction a generalizing path counted with
  | conform p c0 c1 ih0 ih1 =>
      obtain ⟨hnodup0, hnodup1, hdisjoint⟩ := List.nodup_append.mp hnodup
      have hdisjoint : List.Disjoint c0.leaves c1.leaves :=
        fun d h0 h1 => hdisjoint d h0 d h1 rfl
      cases hlookup : (Passed.tests path).lookup p with
      | none =>
          refine ⟨fun v hv => ?_, ?_⟩
          · rw [Passed.lookup_of_outdated hv] at hlookup
            cases hlookup
          · simp only [repeatedActions, hlookup, Action.eval] at heval
            cases hp : conforms counted p with
            | false =>
                simp only [hp, Bool.false_eq_true, if_false] at heval ⊢
                exact ih0 hnodup0 heval
            | true =>
                simp only [hp, if_true] at heval ⊢
                exact ih1 hnodup1 heval
      | some value =>
          have hp : conforms counted p = value := by
            simp only [repeatedActions, hlookup, Action.eval] at heval
            cases hp : conforms counted p with
            | false =>
                simp only [hp, Bool.false_eq_true, if_false] at heval
                cases value with
                | false => rfl
                | true =>
                    exact absurd heval (eval_ne_of_disjoint
                      (fun d h1 h0 => hdisjoint h0 h1) _ counted)
            | true =>
                simp only [hp, if_true] at heval
                cases value with
                | false =>
                    exact absurd heval
                      (eval_ne_of_disjoint hdisjoint _ counted)
                | true => rfl
          refine ⟨fun v hv => ?_, ?_⟩
          · have hv := Passed.lookup_of_outdated hv
            rw [hlookup, Option.some.injEq] at hv
            rw [hp, hv]
          · simp only [repeatedActions, hlookup, Action.eval] at heval
            cases value with
            | false =>
                simp only [hp, Bool.false_eq_true, if_false] at heval ⊢
                rw [repeatedActions_known hlookup] at heval
                exact ih0 hnodup0 heval
            | true =>
                simp only [hp, if_true] at heval ⊢
                rw [repeatedActions_known hlookup] at heval
                exact ih1 hnodup1 heval
  | count p c1 ih1 =>
      have hstep := @ih1 (.counted p :: path) (counted ++ [p]) hnodup heval
      exact hstep
  | _ => trivial

/-- Eliminating repeated tests keeps what a run counts and decides, as long as
no result has changed when a bucket is tested again; if all leaves differ, only
then. -/
theorem repeatedActions_eval (a : Action)
    (conforms : List Bucket → Bucket → Bool)
    (h : ChangesByCount conforms) :
    (TestsAgree conforms [] [] a →
      (repeatedActions [] a).eval conforms [] = a.eval conforms []) ∧
    (a.leaves.Nodup →
      (repeatedActions [] a).eval conforms [] = a.eval conforms [] →
      TestsAgree conforms [] [] a) := by
  refine ⟨fun hagree => ?_, fun hnodup heval => ?_⟩
  · have hknown : Known conforms [] [] := nofun
    exact eval_of_testsAgree h a hknown hagree
  · exact @testsAgree_of_eval conforms [] [] a hnodup heval

/-- Another bucket is counted before bucket 1 is tested again. -/
theorem repeatedActions_eval_other :
    ((repeatedActions [] (.conform 1 .drop (.count 2
        (.conform 1 .unspec (.class 5))))).eval (fun _ _ => true) [] =
      (Action.conform 1 .drop (.count 2
        (.conform 1 .unspec (.class 5)))).eval (fun _ _ => true) []) ∧
      TestsAgree (fun _ _ => true) [] [] (.conform 1 .drop (.count 2
        (.conform 1 .unspec (.class 5)))) := by
  have h := repeatedActions_eval (.conform 1 .drop (.count 2
    (.conform 1 .unspec (.class 5)))) (fun _ _ => true) fun _ _ _ _ => rfl
  have heval := h.1 ⟨nofun, nofun, trivial⟩
  exact ⟨heval, h.2 (by decide) heval⟩

/-- The bucket has room for one packet, and is tested again after that. -/
theorem repeatedActions_counted :
    ¬∀ a conforms, ChangesByCount conforms →
      (repeatedActions [] a).eval conforms [] = a.eval conforms [] := by
  intro h
  have heval := h (.conform 1 .drop (.count 1 (.conform 1 .drop (.class 2))))
    (fun counted p => !counted.contains p) ?_
  · revert heval
    decide +kernel
  · intro counted p q hne
    simp [List.contains_eq_mem, Ne.symm hne]

end Tcng
