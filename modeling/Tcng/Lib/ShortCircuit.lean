import Mathlib.Logic.Basic

/-! Short-circuit logic with escapes: an evaluation reads and changes a state
and ends in a truth value or in a decision, which ends everything around it. -/

namespace ShortCircuit

inductive Result (δ : Type u)
  | truth (value : Bool)
  | decided (decision : δ)
  deriving DecidableEq, Repr

namespace Result

variable {δ : Type u}

def and (x y : Result δ) : Result δ :=
  match x with
  | truth true => y
  | x => x

def or (x y : Result δ) : Result δ :=
  match x with
  | truth false => y
  | x => x

def not : Result δ → Result δ
  | truth value => truth !value
  | decided d => decided d

/-- Changing the decision. -/
def map {ε : Type u} (f : δ → ε) : Result δ → Result ε
  | truth value => truth value
  | decided d => decided (f d)

@[simp] theorem true_and (x : Result δ) : and (truth true) x = x := rfl

@[simp] theorem false_and (x : Result δ) :
    and (truth false) x = truth false := rfl

@[simp] theorem decided_and (d : δ) (x : Result δ) :
    and (decided d) x = decided d := rfl

@[simp] theorem true_or (x : Result δ) :
    or (truth true) x = truth true := rfl

@[simp] theorem false_or (x : Result δ) : or (truth false) x = x := rfl

@[simp] theorem decided_or (d : δ) (x : Result δ) :
    or (decided d) x = decided d := rfl

@[simp] theorem and_true (x : Result δ) : and x (truth true) = x := by
  rcases x with (_ | _) | d <;> rfl

@[simp] theorem or_false (x : Result δ) : or x (truth false) = x := by
  rcases x with (_ | _) | d <;> rfl

theorem and_assoc (x y z : Result δ) :
    and (and x y) z = and x (and y z) := by
  rcases x with (_ | _) | d <;> rfl

theorem or_assoc (x y z : Result δ) : or (or x y) z = or x (or y z) := by
  rcases x with (_ | _) | d <;> rfl

end Result

abbrev Eval (σ : Type u) (δ : Type v) := σ → σ × Result δ

namespace Eval

variable {σ : Type u} {δ : Type v}

def truth (value : Bool) : Eval σ δ := fun s => (s, .truth value)

def decide (decision : δ) : Eval σ δ := fun s => (s, .decided decision)

/-- Continue with `next` after true and with `otherwise` after false. -/
def branch (x next otherwise : Eval σ δ) : Eval σ δ := fun s =>
  match x s with
  | (s', .truth true) => next s'
  | (s', .truth false) => otherwise s'
  | (s', .decided d) => (s', .decided d)

def and (x y : Eval σ δ) : Eval σ δ := branch x y (truth false)

def or (x y : Eval σ δ) : Eval σ δ := branch x (truth true) y

def not (x : Eval σ δ) : Eval σ δ := branch x (truth false) (truth true)

def map {ε : Type v} (f : δ → ε) (x : Eval σ δ) : Eval σ ε := fun s =>
  ((x s).1, (x s).2.map f)

theorem map_map {ε ζ : Type v} (f : δ → ε) (g : ε → ζ) (x : Eval σ δ) :
    map g (map f x) = map (fun d => g (f d)) x := by
  funext s
  simp only [map]
  cases (x s).2 <;> rfl

theorem map_id (x : Eval σ δ) : map (fun d => d) x = x := by
  funext s
  simp only [map]
  rcases x s with ⟨s', _ | _⟩ <;> rfl

@[simp] theorem branch_true (next otherwise : Eval σ δ) :
    branch (truth true) next otherwise = next := rfl

@[simp] theorem branch_false (next otherwise : Eval σ δ) :
    branch (truth false) next otherwise = otherwise := rfl

@[simp] theorem branch_decide (d : δ) (next otherwise : Eval σ δ) :
    branch (decide d) next otherwise = decide d := rfl

theorem truth_inj [Nonempty σ] {a b : Bool} :
    (truth a : Eval σ δ) = truth b ↔ a = b := by
  constructor
  · intro h
    obtain ⟨s⟩ := ‹Nonempty σ›
    exact Result.truth.inj (Prod.mk.inj (congrFun h s)).2
  · intro h
    rw [h]

@[simp] theorem branch_truth (x : Eval σ δ) :
    branch x (truth true) (truth false) = x := by
  funext s
  unfold branch
  rcases x s with ⟨s', (_ | _) | d⟩ <;> rfl

/-- Behind something false the second alternative decides. -/
theorem or_decide {x : Eval σ δ} {s : σ} (h : (x s).2 = .truth false) (d : δ) :
    (or x (decide d) s).2 = .decided d := by
  unfold or branch
  rcases hx : x s with ⟨s', (_ | _) | d'⟩
  · rfl
  · rw [hx] at h
    cases h
  · rw [hx] at h
    cases h

theorem branch_branch (x a b next otherwise : Eval σ δ) :
    branch (branch x a b) next otherwise =
      branch x (branch a next otherwise) (branch b next otherwise) := by
  funext s
  unfold branch
  rcases x s with ⟨s', (_ | _) | d⟩ <;> rfl

theorem branch_and (x y next otherwise : Eval σ δ) :
    branch (and x y) next otherwise =
      branch x (branch y next otherwise) otherwise := by
  simp only [and, branch_branch, branch_false]

theorem branch_or (x y next otherwise : Eval σ δ) :
    branch (or x y) next otherwise =
      branch x next (branch y next otherwise) := by
  simp only [or, branch_branch, branch_true]

theorem branch_not (x next otherwise : Eval σ δ) :
    branch (not x) next otherwise = branch x otherwise next := by
  simp only [not, branch_branch, branch_true, branch_false]

@[simp] protected theorem true_and (x : Eval σ δ) : and (truth true) x = x := rfl

@[simp] protected theorem false_and (x : Eval σ δ) :
    and (truth false) x = truth false := rfl

@[simp] theorem decide_and (d : δ) (x : Eval σ δ) :
    and (decide d) x = decide d := rfl

@[simp] protected theorem and_true (x : Eval σ δ) : and x (truth true) = x :=
  branch_truth x

@[simp] protected theorem true_or (x : Eval σ δ) :
    or (truth true) x = truth true := rfl

@[simp] protected theorem false_or (x : Eval σ δ) : or (truth false) x = x := rfl

@[simp] theorem decide_or (d : δ) (x : Eval σ δ) :
    or (decide d) x = decide d := rfl

@[simp] protected theorem or_false (x : Eval σ δ) : or x (truth false) = x :=
  branch_truth x

protected theorem and_assoc (x y z : Eval σ δ) :
    and (and x y) z = and x (and y z) := by
  exact branch_and x y z (truth false)

protected theorem or_assoc (x y z : Eval σ δ) : or (or x y) z = or x (or y z) := by
  exact branch_or x y (truth true) z

@[simp] protected theorem not_not (x : Eval σ δ) : not (not x) = x := by
  rw [not, branch_not, branch_truth]

/-! What the evaluation of one operand can end in. -/

def NeverFalse (x : Eval σ δ) : Prop := ∀ s, (x s).2 ≠ .truth false

def NeverTrue (x : Eval σ δ) : Prop := ∀ s, (x s).2 ≠ .truth true

def Decides (x : Eval σ δ) : Prop := NeverFalse x ∧ NeverTrue x

theorem decides_decide (d : δ) : Decides (decide d : Eval σ δ) :=
  ⟨fun _ => nofun, fun _ => nofun⟩

theorem neverFalse_true : NeverFalse (truth true : Eval σ δ) := by
  intro s h
  cases h

theorem neverTrue_false : NeverTrue (truth false : Eval σ δ) := by
  intro s h
  cases h

theorem NeverFalse.branch_congr {x next a b : Eval σ δ}
    (hx : NeverFalse x) : branch x next a = branch x next b := by
  funext s
  have h := hx s
  unfold branch
  rcases hs : x s with ⟨s', (_ | _) | d⟩
  · simp [hs] at h
  · rfl
  · rfl

theorem NeverTrue.branch_congr {x a b otherwise : Eval σ δ}
    (hx : NeverTrue x) : branch x a otherwise = branch x b otherwise := by
  funext s
  have h := hx s
  unfold branch
  rcases hs : x s with ⟨s', (_ | _) | d⟩
  · rfl
  · simp [hs] at h
  · rfl

theorem NeverFalse.or_left {x : Eval σ δ} (hx : NeverFalse x)
    (y : Eval σ δ) : or x y = x := by
  rw [or, hx.branch_congr (b := truth false), branch_truth]

theorem NeverTrue.and_left {x : Eval σ δ} (hx : NeverTrue x)
    (y : Eval σ δ) : and x y = x := by
  rw [and, hx.branch_congr (b := truth true), branch_truth]

theorem Decides.branch_left {x : Eval σ δ} (hx : Decides x)
    (next otherwise : Eval σ δ) : branch x next otherwise = x := by
  rw [hx.1.branch_congr (b := truth false),
    hx.2.branch_congr (b := truth true), branch_truth]

private theorem branch_ne_truth {x next otherwise : Eval σ δ} {value : Bool}
    (hnext : (∃ s, (x s).2 = .truth true) →
      ∀ s, (next s).2 ≠ .truth value)
    (hotherwise : (∃ s, (x s).2 = .truth false) →
      ∀ s, (otherwise s).2 ≠ .truth value) :
    ∀ s, (branch x next otherwise s).2 ≠ .truth value := by
  intro s
  unfold branch
  rcases hs : x s with ⟨s', (_ | _) | d⟩
  · exact hotherwise ⟨s, by rw [hs]⟩ s'
  · exact hnext ⟨s, by rw [hs]⟩ s'
  · simp

theorem NeverFalse.branch (x : Eval σ δ) {next otherwise : Eval σ δ}
    (hnext : NeverFalse next) (hotherwise : NeverFalse otherwise) :
    NeverFalse (branch x next otherwise) :=
  branch_ne_truth (fun _ => hnext) (fun _ => hotherwise)

theorem NeverFalse.and {x y : Eval σ δ} (hx : NeverFalse x)
    (hy : NeverFalse y) : NeverFalse (and x y) :=
  branch_ne_truth (fun _ => hy) (fun ⟨s, hs⟩ => absurd hs (hx s))

theorem NeverTrue.and_of_left {x : Eval σ δ} (hx : NeverTrue x)
    (y : Eval σ δ) : NeverTrue (and x y) := by
  rwa [hx.and_left]

theorem NeverTrue.and_of_right {y : Eval σ δ} (x : Eval σ δ)
    (hy : NeverTrue y) : NeverTrue (and x y) :=
  branch_ne_truth (fun _ => hy) (fun _ => neverTrue_false)

theorem NeverTrue.or {x y : Eval σ δ} (hx : NeverTrue x)
    (hy : NeverTrue y) : NeverTrue (or x y) :=
  branch_ne_truth (fun ⟨s, hs⟩ => absurd hs (hx s)) (fun _ => hy)

theorem NeverFalse.or_of_left {x : Eval σ δ} (hx : NeverFalse x)
    (y : Eval σ δ) : NeverFalse (or x y) := by
  rwa [hx.or_left]

theorem NeverFalse.or_of_right {y : Eval σ δ} (x : Eval σ δ)
    (hy : NeverFalse y) : NeverFalse (or x y) :=
  branch_ne_truth (fun _ => neverFalse_true) (fun _ => hy)

theorem NeverFalse.not {x : Eval σ δ} (hx : NeverFalse x) :
    NeverTrue (not x) :=
  branch_ne_truth (fun _ => neverTrue_false)
    (fun ⟨s, hs⟩ => absurd hs (hx s))

theorem NeverTrue.not {x : Eval σ δ} (hx : NeverTrue x) :
    NeverFalse (not x) :=
  branch_ne_truth (fun ⟨s, hs⟩ => absurd hs (hx s))
    (fun _ => neverFalse_true)

/-! Evaluations that leave the state alone are results. -/

def Quiet (x : Eval σ δ) : Prop := ∀ s, (x s).1 = s

theorem quiet_truth (value : Bool) : Quiet (truth value : Eval σ δ) :=
  fun _ => rfl

theorem quiet_decide (d : δ) : Quiet (decide d : Eval σ δ) := fun _ => rfl

theorem Quiet.branch_eq {x : Eval σ δ} (hx : Quiet x)
    (next otherwise : Eval σ δ) (s : σ) :
    branch x next otherwise s =
      match (x s).2 with
      | .truth true => next s
      | .truth false => otherwise s
      | .decided d => (s, .decided d) := by
  have h := hx s
  unfold branch
  rcases hs : x s with ⟨s', (_ | _) | d⟩ <;> simp_all

theorem Quiet.branch {x next otherwise : Eval σ δ} (hx : Quiet x)
    (hnext : Quiet next) (hotherwise : Quiet otherwise) :
    Quiet (branch x next otherwise) := by
  intro s
  rw [hx.branch_eq]
  split
  · exact hnext s
  · exact hotherwise s
  · rfl

theorem Quiet.and {x y : Eval σ δ} (hx : Quiet x) (hy : Quiet y) :
    Quiet (and x y) := hx.branch hy (quiet_truth false)

theorem Quiet.or {x y : Eval σ δ} (hx : Quiet x) (hy : Quiet y) :
    Quiet (or x y) := hx.branch (quiet_truth true) hy

theorem Quiet.not {x : Eval σ δ} (hx : Quiet x) : Quiet (not x) :=
  hx.branch (quiet_truth false) (quiet_truth true)

theorem snd_and_of_quiet {x : Eval σ δ} (hx : Quiet x) (y : Eval σ δ)
    (s : σ) : (and x y s).2 = (x s).2.and (y s).2 := by
  rw [Eval.and, hx.branch_eq]
  rcases (x s).2 with (_ | _) | d <;> rfl

theorem snd_or_of_quiet {x : Eval σ δ} (hx : Quiet x) (y : Eval σ δ)
    (s : σ) : (or x y s).2 = (x s).2.or (y s).2 := by
  rw [Eval.or, hx.branch_eq]
  rcases (x s).2 with (_ | _) | d <;> rfl

/-! Evaluations that only end in a truth value. -/

def Plain (x : Eval σ δ) : Prop := ∀ s, ∃ value, x s = (s, .truth value)

theorem plain_truth (value : Bool) : Plain (truth value : Eval σ δ) :=
  fun _ => ⟨value, rfl⟩

theorem Plain.branch {x next otherwise : Eval σ δ} (hx : Plain x)
    (hnext : Plain next) (hotherwise : Plain otherwise) :
    Plain (branch x next otherwise) := by
  intro s
  obtain ⟨value, hs⟩ := hx s
  unfold Eval.branch
  rw [hs]
  cases value with
  | true => exact hnext s
  | false => exact hotherwise s

theorem Plain.and {x y : Eval σ δ} (hx : Plain x) (hy : Plain y) :
    Plain (and x y) := hx.branch hy (plain_truth false)

theorem Plain.or {x y : Eval σ δ} (hx : Plain x) (hy : Plain y) :
    Plain (or x y) := hx.branch (plain_truth true) hy

/-- Both ways lead to the same place. -/
theorem Plain.branch_same {x : Eval σ δ} (hx : Plain x) (y : Eval σ δ) :
    Eval.branch x y y = y := by
  funext s
  obtain ⟨value, hs⟩ := hx s
  unfold Eval.branch
  rw [hs]
  cases value <;> rfl

theorem Plain.and_false {x : Eval σ δ} (hx : Plain x) :
    Eval.and x (truth false) = truth false := hx.branch_same (truth false)

theorem Plain.or_true {x : Eval σ δ} (hx : Plain x) :
    Eval.or x (truth true) = truth true := hx.branch_same (truth true)

/-! Evaluations that only append to a list, always the same. -/

def record (log : List β) (result : Result δ) : Eval (List β) δ :=
  fun s => (s ++ log, result)

def Steady (x : Eval (List β) δ) : Prop := ∃ log result, x = record log result

theorem truth_eq_record (value : Bool) :
    (truth value : Eval (List β) δ) = record [] (.truth value) := by
  funext s
  simp [truth, record]

theorem decide_eq_record (d : δ) :
    (decide d : Eval (List β) δ) = record [] (.decided d) := by
  funext s
  simp [decide, record]

theorem record_inj {log log' : List β} {result result' : Result δ} :
    record log result = record log' result' ↔
      log = log' ∧ result = result' := by
  constructor
  · intro h
    simpa [record] using congrFun h []
  · intro h
    rw [h.1, h.2]

@[simp] theorem record_nil (log : List β) (result : Result δ) :
    record log result [] = (log, result) := rfl

@[simp] theorem branch_record_true (log log' : List β) (result : Result δ)
    (otherwise : Eval (List β) δ) :
    branch (record log (.truth true)) (record log' result) otherwise =
      record (log ++ log') result := by
  funext s
  simp [branch, record]

@[simp] theorem branch_record_false (log log' : List β) (result : Result δ)
    (next : Eval (List β) δ) :
    branch (record log (.truth false)) next (record log' result) =
      record (log ++ log') result := by
  funext s
  simp [branch, record]

@[simp] theorem branch_record_decided (log : List β) (d : δ)
    (next otherwise : Eval (List β) δ) :
    branch (record log (.decided d)) next otherwise =
      record log (.decided d) := rfl

theorem and_record_true (log log' : List β) (result : Result δ) :
    and (record log (.truth true)) (record log' result) =
      record (log ++ log') result :=
  branch_record_true log log' result (truth false)

theorem and_record_left {log : List β} {result : Result δ}
    (h : result ≠ .truth true) (y : Eval (List β) δ) :
    and (record log result) y = record log result := by
  apply NeverTrue.and_left
  exact fun _ => h

theorem or_record_false (log log' : List β) (result : Result δ) :
    or (record log (.truth false)) (record log' result) =
      record (log ++ log') result :=
  branch_record_false log log' result (truth true)

theorem or_record_left {log : List β} {result : Result δ}
    (h : result ≠ .truth false) (y : Eval (List β) δ) :
    or (record log result) y = record log result := by
  apply NeverFalse.or_left
  exact fun _ => h

theorem not_record (log : List β) (result : Result δ) :
    not (record log result) = record log result.not := by
  funext s
  rcases result with (_ | _) | d <;> rfl

theorem steady_truth (value : Bool) :
    Steady (truth value : Eval (List β) δ) := ⟨_, _, truth_eq_record value⟩

theorem steady_decide (d : δ) : Steady (decide d : Eval (List β) δ) :=
  ⟨_, _, decide_eq_record d⟩

theorem Steady.branch {x next otherwise : Eval (List β) δ} (hx : Steady x)
    (hnext : Steady next) (hotherwise : Steady otherwise) :
    Steady (branch x next otherwise) := by
  obtain ⟨log, (_ | _) | d, rfl⟩ := hx
  · obtain ⟨log', result, rfl⟩ := hotherwise
    exact ⟨_, _, branch_record_false log log' result next⟩
  · obtain ⟨log', result, rfl⟩ := hnext
    exact ⟨_, _, branch_record_true log log' result otherwise⟩
  · exact ⟨_, _, branch_record_decided log d next otherwise⟩

theorem Steady.and {x y : Eval (List β) δ} (hx : Steady x)
    (hy : Steady y) : Steady (and x y) := hx.branch hy (steady_truth false)

theorem Steady.or {x y : Eval (List β) δ} (hx : Steady x)
    (hy : Steady y) : Steady (or x y) := hx.branch (steady_truth true) hy

theorem Steady.not {x : Eval (List β) δ} (hx : Steady x) : Steady (not x) :=
  hx.branch (steady_truth false) (steady_truth true)

/-! Distributing `&&` over `||` repeats an operand. The repetition goes
unnoticed exactly if it ends false without appending anything. -/

theorem or_and_iff_of_steady {x y z : Eval (List β) δ} (hx : Steady x)
    (hy : Steady y) (hz : Steady z) :
    or (and x z) (and y z) = and (or x y) z ↔
      ((x []).2 = .truth true → (z []).2 = .truth false →
        and y z [] = ([], .truth false)) := by
  obtain ⟨logx, resultx, rfl⟩ := hx
  obtain ⟨logy, resulty, rfl⟩ := hy
  obtain ⟨logz, resultz, rfl⟩ := hz
  simp only [Eval.or, Eval.and, branch_branch, branch_true, branch_false]
  rcases resultx with (_ | _) | d <;> rcases resultz with (_ | _) | d' <;>
    rcases resulty with (_ | _) | d'' <;>
      simp [truth_eq_record, record_inj]

theorem and_or_iff_of_steady {x y z : Eval (List β) δ} (hx : Steady x)
    (hy : Steady y) (hz : Steady z) :
    or (and x y) (and x z) = and x (or y z) ↔
      ((x []).2 = .truth false ∨
          (x []).2 = .truth true ∧ (y []).2 = .truth false →
        (x []).1 = []) := by
  obtain ⟨logx, resultx, rfl⟩ := hx
  obtain ⟨logy, resulty, rfl⟩ := hy
  obtain ⟨logz, resultz, rfl⟩ := hz
  simp only [Eval.or, Eval.and, branch_branch, branch_false]
  rcases resultx with (_ | _) | d <;> rcases resulty with (_ | _) | d' <;>
    simp [truth_eq_record, record_inj]

/-- `x` agrees with `y` wherever `y` decides. -/
def Refines (x y : Eval σ δ) : Prop :=
  ∀ s d, (y s).2 = .decided d → x s = y s

theorem Refines.refl (x : Eval σ δ) : Refines x x := fun _ _ _ => rfl

theorem Refines.trans {x y z : Eval σ δ} (hxy : Refines x y)
    (hyz : Refines y z) : Refines x z := by
  intro s d hd
  have hy := hyz s d hd
  rw [← hy] at hd ⊢
  exact hxy s d hd

theorem Refines.branch_congr (x : Eval σ δ)
    {next next' otherwise otherwise' : Eval σ δ} (hnext : Refines next' next)
    (hotherwise : Refines otherwise' otherwise) :
    Refines (Eval.branch x next' otherwise')
      (Eval.branch x next otherwise) := by
  intro s d hd
  unfold Eval.branch at hd ⊢
  rcases hs : x s with ⟨s', (_ | _) | d'⟩
  · simp only [hs] at hd
    exact hotherwise s' d hd
  · simp only [hs] at hd
    exact hnext s' d hd
  · rfl

theorem Refines.branch_left {x y : Eval σ δ} (h : Refines x y)
    (next otherwise : Eval σ δ) : Refines (branch x next otherwise) y := by
  intro s d hd
  have hx := h s d hd
  unfold Eval.branch
  rw [hx]
  rcases hs : y s with ⟨s', _ | d'⟩
  · simp [hs] at hd
  · rfl

end Eval

end ShortCircuit
