import Tcng.IfExt.RulesSound
import Tcng.Iflib.ActionTree
import Tcng.Lib.Ends

/-! Evaluation of a chain goes to the action tree that is reached; what the
rules of a chain test and do. -/

namespace Tcng

open ShortCircuit ShortCircuit.Eval

/-! ## Action trees -/

theorem eval_of_builds {env : Env} {d : Data} {action : Action}
    (h : Builds env d .none .none action) :
    d.eval env .start = action.eval env.conforms := by
  have hbranch : action.eval env.conforms =
      (d.eval env .start).branch (.truth true) (.truth true) := h (.truth true)
  funext counted
  obtain ⟨counted', decision, hdecided⟩ := action.eval_decided env.conforms counted
  have hrun := congrFun hbranch counted
  rw [hdecided] at hrun ⊢
  rcases hd : d.eval env .start counted with ⟨counted'', v | d'⟩
  · simp only [branch, hd] at hrun
    cases v <;> cases hrun
  · simp only [branch, hd] at hrun
    exact hrun.symm

namespace IfExt

/-- No test of a tree looks at the packet. -/
theorem eval_tree {d : Data} (hexpr : Expression d) (h : actionTree d = true)
    (env : Env) (base base' : Base) : d.eval env base = d.eval env base' := by
  -- the second operand matters only where the first one is not sure to decide
  have hsure : ∀ {a b : Data}, Expression a →
      (actionTree a && (selfContained a == .scYes || actionTree b)) = true →
      actionTree a = true ∧
        ((∀ base, Decides (a.eval env base)) ∨ actionTree b = true) := by
    intro a b ha htree
    rw [Bool.and_eq_true, Bool.or_eq_true, beq_iff_eq] at htree
    refine ⟨htree.1, htree.2.imp_left fun hyes base => ?_⟩
    have hsound := ha.selfContained_sound env base
    rw [hyes] at hsound
    exact hsound
  induction hexpr with
  | @number d hd =>
      cases d with
      | op dsc t a b c =>
          simp only [Data.computed, Bool.and_eq_true] at hd
          cases dsc <;> first
            | (cases h; done)
            | cases hd.1
      | decision d => cases hd
      | _ => cases h
  | and t ha hb iha ihb =>
      obtain ⟨htree, hdecides | htreeb⟩ := hsure ha h
      · rw [Data.eval_logicalAnd, Data.eval_logicalAnd,
          (hdecides base).2.and_left, (hdecides base').2.and_left]
        exact iha htree
      · rw [Data.eval_logicalAnd, Data.eval_logicalAnd, iha htree, ihb htreeb]
  | or t ha hb iha ihb =>
      obtain ⟨htree, hdecides | htreeb⟩ := hsure ha h
      · rw [Data.eval_logicalOr, Data.eval_logicalOr,
          (hdecides base).1.or_left, (hdecides base').1.or_left]
        exact iha htree
      · rw [Data.eval_logicalOr, Data.eval_logicalOr, iha htree, ihb htreeb]
  | decision d => rfl
  | conform t p => rfl
  | count t p => rfl
  | _ => cases h

/-! ## Chains -/

/-- What an evaluation does that has come to an action tree, or to a truth
value. -/
def afterReach (env : Env) : Result Data → Eval
  | .decided tree => tree.eval env .start
  | .truth value => .truth value

theorem afterReach_and (env : Env) (value : Bool) (y : Result Data) :
    afterReach env ((Result.truth value).and y) =
      (truth value).and (afterReach env y) := by
  cases value <;> rfl

theorem afterReach_or (env : Env) {x : Result Data} (y : Result Data)
    (h : ∀ tree, x = .decided tree → Decides (tree.eval env .start)) :
    afterReach env (x.or y) = (afterReach env x).or (afterReach env y) := by
  rcases x with (_ | _) | tree
  · rfl
  · rfl
  · exact ((h tree rfl).1.or_left _).symm

theorem treeAction_decides {d : Data} {a : Action} (h : treeAction d = .ok a)
    (env : Env) : Decides (d.eval env .start) := by
  obtain ⟨action, hadd, _⟩ := bind_eq_ok.mp h
  have heval := eval_of_builds (addActions_builds env hadd)
  constructor
  · intro counted hfalse
    obtain ⟨counted', decision, hdecided⟩ := action.eval_decided env.conforms counted
    rw [heval, hdecided] at hfalse
    cases hfalse
  · intro counted htrue
    obtain ⟨counted', decision, hdecided⟩ := action.eval_decided env.conforms counted
    rw [heval, hdecided] at htrue
    cases htrue

/-- The tree a chain reaches is one of its alternatives. -/
theorem Chain.decides {or : Bool} {d : Data} (h : Chain or d) {group : Nat}
    (hreg : Registered group d) (env : Env) (tree : Data)
    (hreach : IfExt.reach env.packet group d = .decided tree) :
    Decides (tree.eval env .start) := by
  rw [h.reach, firstTree] at hreach
  split at hreach
  · next alt hfind =>
      obtain rfl := Result.decided.inj hreach
      obtain ⟨action, haction⟩ := hreg alt (List.mem_of_find?_eq_some hfind)
      exact treeAction_decides haction env
  · cases hreach

theorem Row.not_computed {d : Data} (h : Row d) : d.computed = false := by
  induction h with
  | @tree d h =>
      cases d with
      | op dsc t a b c => cases dsc <;> first | rfl | cases h
      | decision d => rfl
      | _ => cases h
  | and => rfl
  | @root t tail htail g ih =>
      simp [Data.computed, ih]

theorem Chain.not_computed {or : Bool} {d : Data} (h : Chain or d) :
    d.computed = false := by
  induction h with
  | row h => exact h.not_computed
  | root htail g ih => simp [Data.computed, ih]
  | or => rfl

theorem eval_of_tree {d : Data} (h : actionTree d = true) (hexpr : Expression d)
    (env : Env) (group : Nat) :
    d.eval env ⟨group, 0⟩ = afterReach env (reach env.packet group d) := by
  rw [reach_tree h]
  exact eval_tree hexpr h env _ _

theorem MatchTest.eval {d : Data} (h : MatchTest d) (env : Env) (group : Nat) :
    d.eval env ⟨group, 0⟩ =
      truth (decide (d.num env.packet ⟨group, 0⟩ ≠ 0)) := by
  obtain ⟨t, a, b, rfl⟩ := h.eq_cases
  rfl

theorem Row.eval {d : Data} (h : Row d) (hexpr : Expression d) (env : Env)
    (group : Nat) :
    d.eval env ⟨group, 0⟩ = afterReach env (IfExt.reach env.packet group d) := by
  induction h generalizing group with
  | tree h => exact eval_of_tree h hexpr env group
  | @and test tail htest htail ih =>
      cases hexpr with
      | number h => cases h
      | and _ ha hb =>
          have hreach : IfExt.reach env.packet group (.logicalAnd test tail) =
              (IfExt.reach env.packet group test).and
                (IfExt.reach env.packet group tail) := by
            rw [IfExt.reach, htest.not_tree]
            rfl
          rw [hreach, htest.reach, afterReach_and, Data.eval_logicalAnd,
            htest.eval, ih hb]
  | @root t tail htail g ih =>
      cases hexpr with
      | number h =>
          rw [(htail.root g).not_computed] at h
          cases h
      | fieldRoot _ ha hb => exact ih ha g

/-- Evaluation goes to the action tree that is reached. -/
theorem Chain.eval {or : Bool} {d : Data} (h : Chain or d)
    (hexpr : Expression d) (env : Env) {group : Nat}
    (hreg : Registered group d) :
    d.eval env ⟨group, 0⟩ = afterReach env (IfExt.reach env.packet group d) := by
  induction h generalizing group with
  | row h => exact h.eval hexpr env group
  | @root or t tail htail g ih =>
      cases hexpr with
      | number h =>
          have hroot : Chain or (.op .fieldRoot t tail (.fieldRoot g) .none) :=
            .root htail g
          rw [hroot.not_computed] at h
          cases h
      | fieldRoot _ ha hb => exact ih ha hreg
  | @or a b ha hb iha ihb =>
      cases hexpr with
      | number h => cases h
      | or t hexpra hexprb =>
          cases htree : actionTree (.logicalOr a b) with
          | true => exact eval_of_tree htree (.or .unum hexpra hexprb) env group
          | false =>
              have halts : alternatives group (.logicalOr a b) =
                  alternatives group a ++ alternatives group b := by
                rw [alternatives, htree]
                rfl
              have hrega : Registered group a := fun alt halt =>
                hreg alt (halts ▸ List.mem_append_left _ halt)
              have hregb : Registered group b := fun alt halt =>
                hreg alt (halts ▸ List.mem_append_right _ halt)
              have hreach : IfExt.reach env.packet group (.logicalOr a b) =
                  (IfExt.reach env.packet group a).or
                    (IfExt.reach env.packet group b) := by
                rw [IfExt.reach, htree]
                rfl
              rw [hreach, afterReach_or env _ (ha.decides hrega env),
                Data.eval_logicalOr, iha hexpra hrega, ihb hexprb hregb]

/-! ## The tests of a rule -/

/-- The tests of each rule were collected from bits. -/
def Formed (out : Output) : Prop :=
  ∀ r ∈ out.rules, ∃ bits, r.tests = collectBits (sortBits bits)

/-- What a part of the rules ends in. -/
def EndsFormed (x : Except Error (Bool × Output)) : Prop :=
  x.Ends (fun result => Formed result.2) fun _ => True

theorem EndsFormed.map {x : Except Error (Bool × Output)} (h : EndsFormed x)
    (ok : Bool) : EndsFormed (x >>= fun result => .ok (ok, result.2)) :=
  h.bind fun _ hout => hout

theorem Formed.dumpAction {d : Data} {out : Output} (h : Formed out) :
    (IfExt.dumpAction d out).Ends Formed fun _ => True := by
  cases htree : treeAction d with
  | error e =>
      rw [IfExt.dumpAction, htree]
      trivial
  | ok action =>
      rw [IfExt.dumpAction, htree]
      intro r hr
      rcases List.mem_append.mp hr with hr | hr
      · exact h r hr
      · rw [List.mem_singleton] at hr
        exact ⟨out.bits, hr ▸ rfl⟩

end IfExt

end Tcng
