import Tcng.Iflib.SelfContained

/-! Chains of `&&` and `||`, and what they result in where nothing is
counted. -/

namespace Tcng

open ShortCircuit ShortCircuit.Eval

/-- `x1 && (x2 && .. last)` -/
def andChain (xs : List Data) (last : Data) : Data :=
  xs.foldr (fun x chain => .logicalAnd x chain) last

/-- `r1 || (r2 || .. last)` -/
def orChain (rows : List Data) (last : Data) : Data :=
  rows.foldr (fun row chain => .logicalOr row chain) last

@[simp] theorem andChain_nil (last : Data) : andChain [] last = last := rfl

@[simp] theorem andChain_cons (x : Data) (xs : List Data) (last : Data) :
    andChain (x :: xs) last = .logicalAnd x (andChain xs last) := rfl

@[simp] theorem orChain_nil (last : Data) : orChain [] last = last := rfl

@[simp] theorem orChain_cons (row : Data) (rows : List Data) (last : Data) :
    orChain (row :: rows) last = .logicalOr row (orChain rows last) := rfl

namespace Data

def isConform : Data → Bool
  | conform _ => true
  | _ => false

def isDecision : Data → Bool
  | decision _ => true
  | _ => false

/-- What an `&&` chain is made of. -/
def isElement (d : Data) : Bool := d.isTest || (d.isConform || d.isDecision)

theorem isElement_cases {d : Data} (h : d.isElement = true) :
    d.isTest = true ∨ (∃ p, d = conform p) ∨ ∃ decision, d = .decision decision := by
  simp only [isElement, Bool.or_eq_true] at h
  rcases h with h | h | h
  · exact .inl h
  · unfold isConform at h
    split at h
    · exact .inr (.inl ⟨_, rfl⟩)
    · cases h
  · unfold isDecision at h
    split at h
    · exact .inr (.inr ⟨_, rfl⟩)
    · cases h

theorem formula_of_isElement {d : Data} (h : d.isElement = true) :
    Formula .plain d := by
  rcases isElement_cases h with h | ⟨p, rfl⟩ | ⟨decision, rfl⟩
  · exact .test h
  · exact .conform p
  · exact .decision decision

/-- The result of a whole evaluation, counts left aside. -/
def result (env : Env) (d : Data) : Result Decision := (d.outcome env).2

end Data

section

variable {env : Env} {a b : Data}

theorem Formula.quiet_plain {d : Data} (h : Formula .plain d) (env : Env) :
    Quiet (d.eval env .start) := h.quiet not_false env .start

theorem Formula.outcome_eq {d : Data} (h : Formula .plain d) (env : Env) :
    d.outcome env = ([], d.result env) :=
  Prod.ext (h.quiet_plain env []) rfl

theorem Formula.result_and (ha : Formula .plain a) (env : Env) (b : Data) :
    (Data.logicalAnd a b).result env = (a.result env).and (b.result env) := by
  rw [Data.result, Data.outcome, Data.eval_logicalAnd]
  exact snd_and_of_quiet (ha.quiet_plain env) _ _

theorem Formula.result_or (ha : Formula .plain a) (env : Env) (b : Data) :
    (Data.logicalOr a b).result env = (a.result env).or (b.result env) := by
  rw [Data.result, Data.outcome, Data.eval_logicalOr]
  exact snd_or_of_quiet (ha.quiet_plain env) _ _

theorem formula_andChain {xs : List Data} {last : Data}
    (hxs : ∀ x ∈ xs, Formula .plain x) (hlast : Formula .plain last) :
    Formula .plain (andChain xs last) := by
  induction xs with
  | nil => exact hlast
  | cons x xs ih =>
      exact (hxs x List.mem_cons_self).and
        (ih fun y hy => hxs y (List.mem_cons_of_mem x hy))

theorem formula_orChain {rows : List Data} {last : Data}
    (hrows : ∀ row ∈ rows, Formula .plain row) (hlast : Formula .plain last) :
    Formula .plain (orChain rows last) := by
  induction rows with
  | nil => exact hlast
  | cons row rows ih =>
      exact (hrows row List.mem_cons_self).or
        (ih fun r hr => hrows r (List.mem_cons_of_mem row hr))

end

end Tcng
