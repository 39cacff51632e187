import Tcng.Agree
import Tcng.Lib.ShortCircuit

/-! Redundant common subexpressions are eliminated (`common_subexpressions` of
`iflib_red.c`). -/

namespace Tcng

open ShortCircuit

def OpDsc.chained : OpDsc → Bool
  | .or | .and | .logicalOr | .logicalAnd => true
  | _ => false

/-- The walk along a chain to an operand that repeats `a`, which is removed;
also whether the walk starts again. -/
def dropRepeated (dsc : OpDsc) (a : Data) : Data → Option (Data × Bool)
  | .op dsc' t x y z =>
      if dsc' = dsc then
        if a.exprEqual x then some (y, true)
        else if a.exprEqual y then some (x, false)
        else (dropRepeated dsc a y).map fun r => (.op dsc' t x r.1 z, r.2)
      else none
  | _ => none

/-- One round of the loop in `common_subexpressions`. -/
def removal : Data → Option (Data × Bool)
  | .op dsc t a b c =>
      if dsc.chained then
        (dropRepeated dsc a b).map fun r => (.op dsc t a r.1 c, r.2)
      else none
  | _ => none

theorem dropRepeated_size {dsc : OpDsc} {a b b' : Data} {again : Bool}
    (h : dropRepeated dsc a b = some (b', again)) : b'.size < b.size := by
  induction b generalizing b' again with
  | op dsc' t x y z ihx ihy ihz =>
      have hx := x.size_pos
      rw [dropRepeated] at h
      split at h
      · split at h
        · cases h
          rw [Data.size]
          omega
        split at h
        · cases h
          rw [Data.size]
          omega
        · obtain ⟨⟨y', again'⟩, hy, heq⟩ := Option.map_eq_some_iff.mp h
          cases heq
          have hlt := ihy hy
          simp only [Data.size]
          omega
      · cases h
  | _ => cases h

theorem removal_cases {d d' : Data} {again : Bool}
    (h : removal d = some (d', again)) :
    ∃ dsc t a b b' c, d = .op dsc t a b c ∧ d' = .op dsc t a b' c ∧
      dsc.chained = true ∧ dropRepeated dsc a b = some (b', again) := by
  cases d with
  | op dsc t a b c =>
      rw [removal] at h
      split at h
      · rename_i hdsc
        obtain ⟨⟨b', again'⟩, hb, heq⟩ := Option.map_eq_some_iff.mp h
        cases heq
        exact ⟨dsc, t, a, b, b', c, rfl, rfl, hdsc, hb⟩
      · cases h
  | _ => cases h

theorem removal_size {d d' : Data} {again : Bool}
    (h : removal d = some (d', again)) : d'.size < d.size := by
  obtain ⟨dsc, t, a, b, b', c, rfl, rfl, -, hb⟩ := removal_cases h
  have hlt := dropRepeated_size hb
  simp only [Data.size]
  omega

/-- The loop. -/
def removeRepeated (d : Data) : Data :=
  match _h : removal d with
  | some (d', true) => removeRepeated d'
  | some (d', false) => d'
  | none => d
termination_by d.size
decreasing_by exact removal_size _h

theorem removeRepeated_size (d : Data) :
    (removeRepeated d).size ≤ d.size := by
  induction d using removeRepeated.induct with
  | case1 d d' h ih =>
      rw [removeRepeated, h]
      exact Nat.le_trans ih (Nat.le_of_lt (removal_size h))
  | case2 d d' h =>
      rw [removeRepeated, h]
      exact Nat.le_of_lt (removal_size h)
  | case3 d h => rw [removeRepeated, h]

def commonSubexpressions (d : Data) : Data :=
  match _h : removeRepeated d with
  | .op dsc t a b c => .op dsc t (commonSubexpressions a)
      (commonSubexpressions b) (commonSubexpressions c)
  | d' => d'
termination_by d.size
decreasing_by
  all_goals
    have hle := removeRepeated_size d
    rw [_h, Data.size] at hle
    omega

/-! ## Numbers -/

section

variable {α : Type} {f : α → α → α} [Std.Associative f] [Std.Commutative f]
  [Std.IdempotentOp f] {g : Data → α} {dsc : OpDsc}

/-- In a chain of an idempotent operation the order does not matter, and
neither does how often there is an operand. -/
private theorem dropRepeated_absorbed
    (hequal : ∀ d e, d.exprEqual e = true → g d = g e)
    (hop : ∀ t x y z, g (.op dsc t x y z) = f (g x) (g y)) {a b b' : Data}
    {again : Bool} (h : dropRepeated dsc a b = some (b', again)) :
    f (g a) (g b') = f (g a) (g b) := by
  have hidem : f (g a) (g a) = g a := Std.IdempotentOp.idempotent (g a)
  induction b generalizing b' again with
  | op dsc' t x y z ihx ihy ihz =>
      rw [dropRepeated] at h
      split at h
      · rename_i hdsc
        subst hdsc
        split at h
        · rename_i hx
          cases h
          calc f (g a) (g y) = f (f (g a) (g a)) (g y) := by rw [hidem]
            _ = f (g a) (f (g a) (g y)) := by ac_rfl
            _ = f (g a) (g (.op dsc' t x y z)) := by rw [hop, hequal a x hx]
        split at h
        · rename_i hy
          cases h
          calc f (g a) (g x) = f (f (g a) (g a)) (g x) := by rw [hidem]
            _ = f (g a) (f (g x) (g a)) := by ac_rfl
            _ = f (g a) (g (.op dsc' t x y z)) := by rw [hop, hequal a y hy]
        · obtain ⟨⟨y', again'⟩, hy, heq⟩ := Option.map_eq_some_iff.mp h
          cases heq
          calc f (g a) (g (.op dsc' t x y' z)) = f (g x) (f (g a) (g y')) := by
                rw [hop]
                ac_rfl
            _ = f (g x) (f (g a) (g y)) := by rw [ihy hy]
            _ = f (g a) (g (.op dsc' t x y z)) := by
                rw [hop]
                ac_rfl
      · cases h
  | _ => cases h

end

/-- What is left is the same number. -/
theorem removal_sameNumber {d d' : Data} {again : Bool}
    (h : removal d = some (d', again)) (packet : Packet) :
    SameNumber packet d' d := by
  obtain ⟨dsc, t, a, b, b', c, rfl, rfl, hdsc, hb⟩ := removal_cases h
  have hequal (base : Base) (d e : Data) (hde : d.exprEqual e = true) :
      d.num packet base = e.num packet base :=
    congrFun (Data.exprEqual_num hde packet) base
  have hwidth := fun d e hde => Data.exprEqual_width (d := d) (e := e) hde
  have hfixed : (∀ t' p q,
      (Data.op .access t' p q (.op dsc t a b' c)).width =
        (Data.op .access t' p q (.op dsc t a b c)).width) ∧
      (∀ current, (Data.op dsc t a b' c).rootOr current =
        (Data.op dsc t a b c).rootOr current) ∧
      ∀ p, Data.op dsc t a b' c = .police p ↔
        Data.op dsc t a b c = .police p :=
    ⟨fun _ _ _ => rfl, fun _ => rfl, fun _ => iff_of_false nofun nofun⟩
  obtain ⟨haccess, hroot, hpolice⟩ := hfixed
  cases dsc with
  | or =>
      exact ⟨fun base => dropRepeated_absorbed (f := (· ||| ·))
          (hequal base) (fun _ _ _ _ => rfl) hb,
        dropRepeated_absorbed (f := max) hwidth (fun _ _ _ _ => rfl) hb,
        haccess, hroot, hpolice⟩
  | and =>
      exact ⟨fun base => dropRepeated_absorbed (f := (· &&& ·))
          (hequal base) (fun _ _ _ _ => rfl) hb,
        dropRepeated_absorbed (f := max) hwidth (fun _ _ _ _ => rfl) hb,
        haccess, hroot, hpolice⟩
  | logicalOr | logicalAnd =>
      exact ⟨fun _ => rfl, rfl, haccess, hroot, hpolice⟩
  | _ => cases hdsc

/-! ## Counting -/

section

variable (packet : Packet) (conforms : Bucket → Bool)

theorem Data.steady (d : Data) (base : Base) :
    Eval.Steady (d.eval (.steady packet conforms) base) := by
  induction d generalizing base with
  | op dsc t a b c iha ihb ihc =>
      cases dsc
      case logicalOr => simpa using (iha base).or (ihb base)
      case logicalAnd => simpa using (iha base).and (ihb base)
      case logicalNot => simpa using (iha base).not
      case offset => exact iha _
      case fieldRoot => exact iha _
      case conform =>
        cases a with
        | police p => exact Eval.steady_truth (conforms p)
        | _ => exact Eval.steady_truth _
      case count =>
        cases a with
        | police p => exact ⟨[p], .truth true, rfl⟩
        | _ => exact Eval.steady_truth _
      all_goals exact Eval.steady_truth _
  | decision d => exact Eval.steady_decide d
  | _ => exact Eval.steady_truth _

/-- What an expression counts with fixed conform results. -/
def Data.counts (d : Data) (base : Base) : List Bucket :=
  (d.eval (.steady packet conforms) base []).1

/-- How it ends. -/
def Data.verdict (d : Data) (base : Base) : Result Decision :=
  (d.eval (.steady packet conforms) base []).2

/-- The right operand is evaluated. -/
def Passes (dsc : OpDsc) (a : Data) (base : Base) : Prop :=
  a.verdict packet conforms base = .truth (dsc == .logicalAnd)

/-- The operand that repeats `a` is evaluated and counts, after all operands
before. -/
def RepeatCounts (dsc : OpDsc) (a : Data) (base : Base) : Data → Prop
  | .op dsc' _ x y _ =>
      dsc' = dsc ∧
        if a.exprEqual x then a.counts packet conforms base ≠ []
        else Passes packet conforms dsc x base ∧
          if a.exprEqual y then a.counts packet conforms base ≠ []
          else RepeatCounts dsc a base y
  | _ => False

/-- The operand that is removed next is evaluated and counts. -/
def RemovalCounts (base : Base) : Data → Prop
  | .op dsc _ a b _ =>
      (dsc = .logicalAnd ∨ dsc = .logicalOr) ∧
        Passes packet conforms dsc a base ∧
        RepeatCounts packet conforms dsc a base b
  | _ => False

theorem eval_eq_record (d : Data) (base : Base) :
    d.eval (.steady packet conforms) base =
      Eval.record (d.counts packet conforms base)
        (d.verdict packet conforms base) := by
  obtain ⟨log, result, h⟩ := d.steady packet conforms base
  rw [Data.counts, Data.verdict, h]
  rfl

section

variable {dsc : OpDsc} (h : dsc = .logicalAnd ∨ dsc = .logicalOr)
  (t : DataType) {a : Data} (b c : Data) {base : Base}
include h

/-- After an operand that passes, the next one decides. -/
theorem eval_passes (ha : Passes packet conforms dsc a base) :
    (Data.op dsc t a b c).eval (.steady packet conforms) base =
      Eval.record (a.counts packet conforms base ++
        b.counts packet conforms base) (b.verdict packet conforms base) := by
  have heval := eval_eq_record packet conforms a base
  rw [ha] at heval
  obtain rfl | rfl := h
  · rw [Data.eval_logicalAnd, heval, eval_eq_record packet conforms b]
    exact Eval.and_record_true _ _ _
  · rw [Data.eval_logicalOr, heval, eval_eq_record packet conforms b]
    exact Eval.or_record_false _ _ _

theorem eval_stops (ha : ¬Passes packet conforms dsc a base) :
    (Data.op dsc t a b c).eval (.steady packet conforms) base =
      a.eval (.steady packet conforms) base := by
  have heval := eval_eq_record packet conforms a base
  obtain rfl | rfl := h
  · rw [Data.eval_logicalAnd, heval, Eval.and_record_left ha]
  · rw [Data.eval_logicalOr, heval, Eval.or_record_left ha]

end

/-- An expression ends like another one and counts a part of what that one
counts, and all of it under a condition. -/
structure Counted (base : Base) (d' d : Data) (p : Prop) : Prop where
  verdict : d'.verdict packet conforms base = d.verdict packet conforms base
  sublist : (d'.counts packet conforms base).Sublist
    (d.counts packet conforms base)
  counts : d'.counts packet conforms base = d.counts packet conforms base ↔ p

private theorem append_eq_iff {α : Type} {xs xs' ys ys' : List α}
    (hx : xs'.Sublist xs) (hy : ys'.Sublist ys) :
    xs' ++ ys' = xs ++ ys ↔ xs' = xs ∧ ys' = ys := by
  constructor
  · intro h
    have hlength := congrArg List.length h
    rw [List.length_append, List.length_append] at hlength
    have hlex := hx.length_le
    have hley := hy.length_le
    exact List.append_inj h (by omega)
  · rintro ⟨rfl, rfl⟩
    rfl

namespace Counted

variable {packet conforms} {base : Base}

theorem of_eval {base' : Base} {d d' e e' : Data} {p : Prop}
    (h : Counted packet conforms base' d' d p)
    (he' : e'.eval (.steady packet conforms) base =
      d'.eval (.steady packet conforms) base')
    (he : e.eval (.steady packet conforms) base =
      d.eval (.steady packet conforms) base') :
    Counted packet conforms base e' e p := by
  obtain ⟨hverdict, hsublist, hcounts⟩ := h
  simp only [Data.verdict, Data.counts] at hverdict hsublist hcounts
  refine ⟨?_, ?_, ?_⟩
  · rw [Data.verdict, Data.verdict, he', he, hverdict]
  · rw [Data.counts, Data.counts, he', he]
    exact hsublist
  · rw [Data.counts, Data.counts, he', he]
    exact hcounts

theorem refl (d : Data) : Counted packet conforms base d d True :=
  ⟨rfl, .refl _, iff_of_true rfl trivial⟩

theorem congr {d d' : Data} {p q : Prop}
    (h : Counted packet conforms base d' d p) (hpq : p ↔ q) :
    Counted packet conforms base d' d q :=
  ⟨h.verdict, h.sublist, h.counts.trans hpq⟩

theorem trans {d d' d'' : Data} {p q : Prop}
    (h : Counted packet conforms base d'' d' p)
    (h' : Counted packet conforms base d' d q) :
    Counted packet conforms base d'' d (q ∧ p) where
  verdict := h.verdict.trans h'.verdict
  sublist := h.sublist.trans h'.sublist
  counts := by
    rw [← h.counts, ← h'.counts]
    constructor
    · intro heq
      have hle := h'.sublist.length_le
      rw [← heq] at hle
      have hsame := h.sublist.eq_of_length_le hle
      exact ⟨hsame ▸ heq, hsame⟩
    · rintro ⟨heq', heq⟩
      exact heq.trans heq'

/-- Both operands of `&&` or `||`. -/
theorem chain {dsc : OpDsc} (h : dsc = .logicalAnd ∨ dsc = .logicalOr)
    {a a' b b' : Data} {p q : Prop}
    (ha : Counted packet conforms base a' a p)
    (hb : Counted packet conforms base b' b q) (t : DataType) (c c' : Data) :
    Counted packet conforms base (.op dsc t a' b' c') (.op dsc t a b c)
      (p ∧ (Passes packet conforms dsc a base → q)) := by
  by_cases hpass : Passes packet conforms dsc a base
  · have hpass' : Passes packet conforms dsc a' base :=
      ha.verdict.trans hpass
    have heval := eval_passes packet conforms h t b c hpass
    have heval' := eval_passes packet conforms h t b' c' hpass'
    refine ⟨?_, ?_, ?_⟩
    · rw [Data.verdict, Data.verdict, heval, heval']
      exact hb.verdict
    · rw [Data.counts, Data.counts, heval, heval']
      exact ha.sublist.append hb.sublist
    · rw [Data.counts, Data.counts, heval, heval', Eval.record_nil,
        Eval.record_nil, append_eq_iff ha.sublist hb.sublist, ha.counts,
        hb.counts, forall_prop_of_true hpass]
  · have hpass' : ¬Passes packet conforms dsc a' base := fun hpass' =>
      hpass (ha.verdict.symm.trans hpass')
    refine (ha.of_eval (eval_stops packet conforms h t b' c' hpass')
      (eval_stops packet conforms h t b c hpass)).congr ?_
    exact (and_iff_left fun h => absurd h hpass).symm

/-- The operand of `!`. -/
theorem not {a a' : Data} {p : Prop}
    (ha : Counted packet conforms base a' a p) (t : DataType)
    (b b' c c' : Data) :
    Counted packet conforms base (.op .logicalNot t a' b' c')
      (.op .logicalNot t a b c) p := by
  have hnot (d b c : Data) :
      (Data.op .logicalNot t d b c).eval (.steady packet conforms) base =
        Eval.record (d.counts packet conforms base)
          (d.verdict packet conforms base).not := by
    rw [Data.eval_logicalNot, eval_eq_record packet conforms d]
    exact Eval.not_record _ _
  refine ⟨?_, ?_, ?_⟩
  · rw [Data.verdict, Data.verdict, hnot, hnot, ha.verdict]
    rfl
  · rw [Data.counts, Data.counts, hnot, hnot]
    exact ha.sublist
  · rw [Data.counts, Data.counts, hnot, hnot]
    exact ha.counts

end Counted

section

variable {packet conforms} {base : Base} {dsc : OpDsc}
  (hdsc : dsc = .logicalAnd ∨ dsc = .logicalOr)
include hdsc

/-- An operand like one that has passed passes, too. -/
private theorem dropRepeated_counted {a b b' : Data} {again : Bool}
    (hpass : Passes packet conforms dsc a base)
    (h : dropRepeated dsc a b = some (b', again)) :
    Counted packet conforms base b' b
      (¬RepeatCounts packet conforms dsc a base b) := by
  have hsame {x : Data} (hx : a.exprEqual x = true) :
      x.counts packet conforms base = a.counts packet conforms base ∧
        x.verdict packet conforms base = a.verdict packet conforms base := by
    rw [Data.counts, Data.verdict, ← Data.exprEqual_eval hx]
    exact ⟨rfl, rfl⟩
  induction b generalizing b' again with
  | op dsc' t x y z ihx ihy ihz =>
      rw [dropRepeated] at h
      split at h
      swap
      · cases h
      rename_i heq
      subst heq
      have hnext (hx : Passes packet conforms dsc' x base) :=
        eval_passes packet conforms hdsc t y z hx
      split at h
      · -- the repetition is at the start of the rest
        rename_i hx
        cases h
        obtain ⟨hcounts, hverdict⟩ := hsame hx
        have heval := hnext (hverdict.trans hpass)
        simp only [RepeatCounts, hx, if_true, true_and, ne_eq, not_not]
        refine ⟨?_, ?_, ?_⟩
        · rw [Data.verdict, Data.verdict, heval]
          rfl
        · rw [Data.counts, Data.counts, heval]
          exact List.sublist_append_right _ _
        · rw [Data.counts, Data.counts, heval, Eval.record_nil, hcounts]
          exact List.self_eq_append_left
      rename_i hx
      split at h
      · -- it is the rest itself
        rename_i hy
        cases h
        obtain ⟨hcounts, hverdict⟩ := hsame hy
        simp only [RepeatCounts, hx, hy, if_true, Bool.false_eq_true, if_false,
          true_and, not_and, ne_eq, not_not]
        by_cases hpassx : Passes packet conforms dsc' x base
        · have heval := hnext hpassx
          refine ⟨?_, ?_, ?_⟩
          · rw [Data.verdict, Data.verdict, heval, Eval.record_nil, hverdict,
              hpass]
            exact hpassx
          · rw [Data.counts, Data.counts, heval]
            exact List.sublist_append_left _ _
          · rw [Data.counts, Data.counts, heval, Eval.record_nil, hcounts,
              forall_prop_of_true hpassx]
            exact List.self_eq_append_right
        · refine ((Counted.refl x).of_eval rfl
            (eval_stops packet conforms hdsc t y z hpassx)).congr ?_
          exact iff_of_true trivial fun h => absurd h hpassx
      · rename_i hy
        obtain ⟨⟨y', again'⟩, hdrop, heq⟩ := Option.map_eq_some_iff.mp h
        cases heq
        refine ((Counted.refl x).chain hdsc (ihy hdrop) t z z).congr ?_
        simp only [RepeatCounts, hx, hy, Bool.false_eq_true, if_false,
          true_and, not_and]
  | _ => cases h

end

private theorem eval_computed {dsc : OpDsc}
    (h : dsc = .or ∨ dsc = .and) (t : DataType) (a b c : Data) (env : Env)
    (base : Base) : (Data.op dsc t a b c).eval env base =
      .truth (decide ((Data.op dsc t a b c).num env.packet base ≠ 0)) := by
  obtain rfl | rfl := h <;> simp only [Data.eval]

theorem removal_counted {d d' : Data} {again : Bool}
    (h : removal d = some (d', again)) (base : Base) :
    Counted packet conforms base d' d
      (¬RemovalCounts packet conforms base d) := by
  have hnum := (removal_sameNumber h packet).num base
  obtain ⟨dsc, t, a, b, b', c, rfl, rfl, hchained, hb⟩ := removal_cases h
  by_cases hdsc : dsc = .logicalAnd ∨ dsc = .logicalOr
  · rw [RemovalCounts, and_iff_right hdsc, not_and]
    by_cases hpass : Passes packet conforms dsc a base
    · refine ((Counted.refl a).chain hdsc
        (dropRepeated_counted hdsc hpass hb) t c c).congr ?_
      rw [true_and, forall_prop_of_true hpass]
    · refine ((Counted.refl a).of_eval
        (eval_stops packet conforms hdsc t b' c hpass)
        (eval_stops packet conforms hdsc t b c hpass)).congr ?_
      exact iff_of_true trivial fun h => absurd h hpass
  · have hbits : dsc = .or ∨ dsc = .and := by
      cases dsc <;> simp_all [OpDsc.chained]
    have heval : (Data.op dsc t a b' c).eval (.steady packet conforms) base =
        (Data.op dsc t a b c).eval (.steady packet conforms) base := by
      have hpacket : (Env.steady packet conforms).packet = packet := rfl
      rw [eval_computed hbits, eval_computed hbits, hpacket, hnum]
    refine ((Counted.refl _).of_eval heval rfl).congr ?_
    exact iff_of_true trivial fun h => hdsc h.1

/-- No operand that the loop removes is evaluated and counts. -/
def LoopHarmless (base : Base) (d : Data) : Prop :=
  match _h : removal d with
  | some (d', true) => ¬RemovalCounts packet conforms base d ∧
      LoopHarmless base d'
  | some (_, false) => ¬RemovalCounts packet conforms base d
  | none => True
termination_by d.size
decreasing_by exact removal_size _h

theorem removeRepeated_sameNumber (d : Data) :
    SameNumber packet (removeRepeated d) d := by
  induction d using removeRepeated.induct with
  | case1 d d' h ih =>
      rw [removeRepeated, h]
      exact ih.trans (removal_sameNumber h packet)
  | case2 d d' h =>
      rw [removeRepeated, h]
      exact removal_sameNumber h packet
  | case3 d h =>
      rw [removeRepeated, h]
      exact .refl packet d

theorem removeRepeated_counted (d : Data) (base : Base) :
    Counted packet conforms base (removeRepeated d) d
      (LoopHarmless packet conforms base d) := by
  induction d using removeRepeated.induct with
  | case1 d d' h ih =>
      rw [removeRepeated, LoopHarmless, h]
      exact ih.trans (removal_counted packet conforms h base)
  | case2 d d' h =>
      rw [removeRepeated, LoopHarmless, h]
      exact removal_counted packet conforms h base
  | case3 d h =>
      rw [removeRepeated, LoopHarmless, h]
      exact .refl d

/-- No operand that is removed anywhere is evaluated and counts. -/
def Harmless (base : Base) (d : Data) : Prop :=
  LoopHarmless packet conforms base d ∧
  match _h : removeRepeated d with
  | .op dsc _ a b _ =>
      (dsc = .logicalAnd ∨ dsc = .logicalOr → Harmless base a ∧
        (Passes packet conforms dsc a base → Harmless base b)) ∧
      (dsc = .logicalNot → Harmless base a) ∧
      (dsc = .offset → Harmless
        { base with offset := base.offset + 8 * b.num packet base } a) ∧
      (dsc = .fieldRoot → Harmless ⟨b.rootOr base.root, 0⟩ a)
  | _ => True
termination_by d.size
decreasing_by
  all_goals
    have hle := removeRepeated_size d
    rw [_h, Data.size] at hle
    omega

variable {packet conforms}

/-- The operators that do more than to calculate a number. -/
def OpDsc.controls : OpDsc → Bool
  | .logicalOr | .logicalAnd | .logicalNot | .offset | .fieldRoot | .conform
  | .count => true
  | _ => false

private theorem eval_number {dsc : OpDsc} (h : dsc.controls = false)
    (t : DataType) (a b c : Data) (env : Env) (base : Base) :
    (Data.op dsc t a b c).eval env base =
      .truth (decide ((Data.op dsc t a b c).num env.packet base ≠ 0)) := by
  cases dsc <;> first | (simp only [Data.eval]; done) | cases h

/-- What is counted in the operands is counted by the operator. -/
private theorem counted_op {dsc : OpDsc} {t : DataType}
    {a b c a' b' c' : Data} {p q : Base → Prop}
    (ha : ∀ base, Counted packet conforms base a' a (p base))
    (hb : ∀ base, Counted packet conforms base b' b (q base))
    (hsamea : SameNumber packet a' a) (hsameb : SameNumber packet b' b)
    (hsamec : SameNumber packet c' c) (base : Base) :
    Counted packet conforms base (.op dsc t a' b' c') (.op dsc t a b c)
      ((dsc = .logicalAnd ∨ dsc = .logicalOr → p base ∧
        (Passes packet conforms dsc a base → q base)) ∧
      (dsc = .logicalNot → p base) ∧
      (dsc = .offset → p
        { base with offset := base.offset + 8 * b.num packet base }) ∧
      (dsc = .fieldRoot → p ⟨b.rootOr base.root, 0⟩)) := by
  have hsame := hsamea.op hsameb hsamec dsc t
  cases hcontrols : dsc.controls with
  | false =>
      have heval : (Data.op dsc t a' b' c').eval (.steady packet conforms)
          base = (Data.op dsc t a b c).eval (.steady packet conforms) base := by
        have hpacket : (Env.steady packet conforms).packet = packet := rfl
        rw [eval_number hcontrols, eval_number hcontrols, hpacket, hsame.num]
      refine ((Counted.refl _).of_eval heval rfl).congr ?_
      cases dsc <;> first | (simp; done) | cases hcontrols
  | true =>
      cases dsc with
      | logicalAnd | logicalOr =>
          refine ((ha base).chain (by decide) (hb base) t c c').congr ?_
          simp
      | logicalNot =>
          refine ((ha base).not t b b' c c').congr ?_
          simp
      | offset =>
          refine ((ha _).of_eval (e := .op .offset t a b c) ?_ rfl).congr ?_
          · have hpacket : (Env.steady packet conforms).packet = packet := rfl
            simp only [Data.eval, hpacket, hsameb.num]
          · simp [Env.steady]
      | fieldRoot =>
          refine ((ha _).of_eval (e := .op .fieldRoot t a b c) ?_ rfl).congr ?_
          · simp only [Data.eval, hsameb.root]
          · simp
      | conform | count =>
          refine ((Counted.refl _).of_eval (Agree.op_eval_bucket hsamea.police
            hsame.num (by decide) _ base rfl) rfl).congr ?_
          simp
      | _ => cases hcontrols

end

private theorem commonSubexpressions_counted (packet : Packet)
    (conforms : Bucket → Bool) (d : Data) :
    SameNumber packet (commonSubexpressions d) d ∧ ∀ base,
      Counted packet conforms base (commonSubexpressions d) d
        (Harmless packet conforms base d) := by
  induction d using commonSubexpressions.induct with
  | case1 d dsc t a b c h iha ihb ihc =>
      have hsame := removeRepeated_sameNumber packet d
      have hcounted := removeRepeated_counted packet conforms d
      rw [commonSubexpressions, h]
      rw [h] at hsame hcounted
      refine ⟨(iha.1.op ihb.1 ihc.1 dsc t).trans hsame, fun base => ?_⟩
      rw [Harmless, h]
      exact (counted_op iha.2 ihb.2 iha.1 ihb.1 ihc.1 base).trans
        (hcounted base)
  | case2 d hleaf =>
      have hsame := removeRepeated_sameNumber packet d
      have hcounted := removeRepeated_counted packet conforms d
      have hresult : commonSubexpressions d = removeRepeated d := by
        rw [commonSubexpressions]
        split
        · rename_i heq
          exact absurd heq (hleaf _ _ _ _ _)
        · rfl
      rw [hresult]
      refine ⟨hsame, fun base => (hcounted base).congr ?_⟩
      rw [Harmless]
      split
      · rename_i heq
        exact absurd heq (hleaf _ _ _ _ _)
      · rw [and_true]

/-- The decision stays the same. What is counted does if no operand that is
removed as a repetition is evaluated and counts. -/
theorem commonSubexpressions_outcome (packet : Packet)
    (conforms : Bucket → Bool) (d : Data) :
    ((commonSubexpressions d).outcome (.steady packet conforms)).2 =
        (d.outcome (.steady packet conforms)).2 ∧
      ((commonSubexpressions d).outcome (.steady packet conforms) =
          d.outcome (.steady packet conforms) ↔
        Harmless packet conforms .start d) := by
  obtain ⟨-, h⟩ := commonSubexpressions_counted packet conforms d
  obtain ⟨hverdict, -, hcounts⟩ := h .start
  refine ⟨hverdict, ?_⟩
  rw [← hcounts]
  constructor
  · intro heq
    exact congrArg Prod.fst heq
  · intro heq
    exact Prod.ext heq hverdict

/-- `count p && count p && drop` -/
theorem commonSubexpressions_countsOnce :
    ¬∀ packet conforms d,
      (commonSubexpressions d).outcome (.steady packet conforms) =
        d.outcome (.steady packet conforms) := by
  intro h
  let d := Data.logicalAnd (.count 1) (.logicalAnd (.count 1)
    (.decision .drDrop))
  have hsame := h (fun _ _ => false) (fun _ => false) d
  have hcounted := (commonSubexpressions_counted (fun _ _ => false)
    (fun _ => false) d).2 .start
  have hharmless := hcounted.counts.mp (congrArg Prod.fst hsame)
  have hremoval : removal d =
      some (.logicalAnd (.count 1) (.decision .drDrop), true) := by decide
  rw [Harmless, LoopHarmless, hremoval] at hharmless
  refine hharmless.1.1 ⟨.inl rfl, rfl, rfl, ?_⟩
  rw [if_pos (by decide)]
  exact List.cons_ne_nil 1 []

end Tcng
