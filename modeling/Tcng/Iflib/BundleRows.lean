import Tcng.Iflib.Bundle

/-! Rows of `&&` chains: what they result in, and the paths through them. -/

namespace Tcng

open ShortCircuit

/-! Rows put back together. -/

def ofRow : List Data → Data
  | [] => .none
  | [last] => last
  | cell :: next :: cells => .logicalAnd cell (ofRow (next :: cells))

def ofRows : List (List Data) → Data
  | [] => .none
  | [last] => ofRow last
  | row :: next :: rows => .logicalOr (ofRow row) (ofRows (next :: rows))

theorem ofRow_cons (cell : Data) {cells : List Data} (h : cells ≠ []) :
    ofRow (cell :: cells) = .logicalAnd cell (ofRow cells) := by
  cases cells with
  | nil => exact absurd rfl h
  | cons next cells => rfl

theorem ofRows_cons (row : List Data) {rows : List (List Data)}
    (h : rows ≠ []) :
    ofRows (row :: rows) = .logicalOr (ofRow row) (ofRows rows) := by
  cases rows with
  | nil => exact absurd rfl h
  | cons next rows => rfl

/-- Elements joined by `&&`, where an alternative may stand at the end. -/
inductive Nested : Data → Prop
  | element {d : Data} (h : d.isElement = true) : Nested d
  | and {a b : Data} (ha : a.isElement = true) (hb : Nested b) :
      Nested (.logicalAnd a b)
  | or {a b : Data} (ha : Nested a) (hb : Nested b) : Nested (.logicalOr a b)

/-- The cells of one row. -/
inductive NestedRow : List Data → Prop
  | last {d : Data} (h : Nested d) : NestedRow [d]
  | cons {d : Data} {cells : List Data} (hd : d.isElement = true)
      (h : NestedRow cells) : NestedRow (d :: cells)

theorem Nested.formula {d : Data} (h : Nested d) : Formula .plain d := by
  induction h with
  | element h => exact Data.formula_of_isElement h
  | and ha _ ihb => exact (Data.formula_of_isElement ha).and ihb
  | or _ _ iha ihb => exact .or iha ihb

theorem NestedRow.ne_nil {cells : List Data} (h : NestedRow cells) :
    cells ≠ [] := by
  cases h <;> exact List.cons_ne_nil _ _

theorem NestedRow.nested {cells : List Data} (h : NestedRow cells) :
    Nested (ofRow cells) := by
  induction h with
  | last h => exact h
  | cons hd h ih =>
      rw [ofRow_cons _ h.ne_nil]
      exact .and hd ih

theorem NestedRow.cells {cells : List Data} (h : NestedRow cells) :
    ∀ d ∈ cells, Nested d := by
  induction h with
  | last h =>
      intro d hd
      rw [List.mem_singleton] at hd
      exact hd ▸ h
  | cons hd _ ih =>
      intro d hmem
      rcases List.mem_cons.mp hmem with rfl | hmem
      · exact .element hd
      · exact ih d hmem

theorem nested_ofRows {rows : List (List Data)} (hne : rows ≠ [])
    (h : ∀ row ∈ rows, NestedRow row) : Nested (ofRows rows) := by
  induction rows with
  | nil => exact absurd rfl hne
  | cons row rows ih =>
      have hrow := (h row List.mem_cons_self).nested
      cases rows with
      | nil => exact hrow
      | cons next rows =>
          exact .or hrow (ih (List.cons_ne_nil _ _) fun r hr =>
            h r (List.mem_cons_of_mem row hr))

/-! The matrix of an expression. -/

private theorem isElement_not_and {d : Data} (h : d.isElement = true) :
    andCells d = [d] ∧ bundleMakeMatrix d = [[d]] := by
  rcases Data.isElement_cases h with h | ⟨p, rfl⟩ | ⟨decision, rfl⟩
  · obtain ⟨dsc, x, k, rfl, hdsc, _⟩ := Data.isTest_cases h
    cases dsc <;> first | contradiction | exact ⟨rfl, rfl⟩
  · exact ⟨rfl, rfl⟩
  · exact ⟨rfl, rfl⟩

theorem Nested.andCells {d : Data} (h : Nested d) :
    NestedRow (andCells d) ∧ ofRow (andCells d) = d := by
  induction h with
  | element h =>
      rw [(isElement_not_and h).1]
      exact ⟨.last (.element h), rfl⟩
  | and ha hb ih =>
      refine ⟨.cons ha ih.1, ?_⟩
      rw [Tcng.andCells, ofRow_cons _ ih.1.ne_nil, ih.2]
  | or ha hb => exact ⟨.last (.or ha hb), rfl⟩

theorem Nested.matrix {d : Data} (h : Nested d) :
    bundleMakeMatrix d ≠ [] ∧ (∀ row ∈ bundleMakeMatrix d, NestedRow row) ∧
      ofRows (bundleMakeMatrix d) = d := by
  induction h with
  | element h =>
      rw [(isElement_not_and h).2]
      refine ⟨List.cons_ne_nil _ _, ?_, rfl⟩
      intro row hrow
      rw [List.mem_singleton] at hrow
      exact hrow ▸ .last (.element h)
  | and ha hb _ =>
      have hcells := (Nested.and ha hb).andCells
      refine ⟨List.cons_ne_nil _ _, ?_, hcells.2⟩
      intro row hrow
      have heq : row = Tcng.andCells (.logicalAnd _ _) :=
        List.mem_singleton.mp hrow
      exact heq ▸ hcells.1
  | or ha hb _ ihb =>
      have hcells := ha.andCells
      refine ⟨List.cons_ne_nil _ _, ?_, ?_⟩
      · intro row hrow
        rcases List.mem_cons.mp hrow with rfl | hrow
        · exact hcells.1
        · exact ihb.2.1 row hrow
      · rw [bundleMakeMatrix, ofRows_cons _ ihb.1, hcells.2, ihb.2.2]

/-! What rows result in. -/

def rowResult (env : Env) (cells : List Data) : Result Decision :=
  cells.foldr (fun cell rest => (cell.result env).and rest) (.truth true)

def rowsResult (env : Env) (rows : List (List Data)) : Result Decision :=
  rows.foldr (fun row rest => (rowResult env row).or rest) (.truth false)

theorem NestedRow.result {cells : List Data} (h : NestedRow cells)
    (env : Env) : (ofRow cells).result env = rowResult env cells := by
  induction h with
  | last h => exact (Result.and_true _).symm
  | cons hd h ih =>
      rw [ofRow_cons _ h.ne_nil,
        (Data.formula_of_isElement hd).result_and, ih]
      rfl

theorem result_ofRows {rows : List (List Data)} (hne : rows ≠ [])
    (h : ∀ row ∈ rows, NestedRow row) (env : Env) :
    (ofRows rows).result env = rowsResult env rows := by
  induction rows with
  | nil => exact absurd rfl hne
  | cons row rows ih =>
      have hrow := h row List.mem_cons_self
      cases rows with
      | nil =>
          rw [ofRows, hrow.result]
          exact (Result.or_false _).symm
      | cons next rows =>
          rw [ofRows, hrow.nested.formula.result_or, hrow.result,
            ih (List.cons_ne_nil _ _) fun r hr =>
              h r (List.mem_cons_of_mem row hr)]
          rfl

theorem rowResult_append (env : Env) (as bs : List Data) :
    rowResult env (as ++ bs) =
      (rowResult env as).and (rowResult env bs) := by
  induction as with
  | nil => rfl
  | cons a as ih =>
      simp only [rowResult, List.cons_append, List.foldr_cons] at ih ⊢
      rw [ih, Result.and_assoc]

theorem rowsResult_append (env : Env) (as bs : List (List Data)) :
    rowsResult env (as ++ bs) =
      (rowsResult env as).or (rowsResult env bs) := by
  induction as with
  | nil => rfl
  | cons a as ih =>
      simp only [rowsResult, List.cons_append, List.foldr_cons] at ih ⊢
      rw [ih, Result.or_assoc]

/-- The cells of two rows are pairwise equal for `expr_equal`. -/
abbrev SameCells : List Data → List Data → Prop :=
  List.Forall₂ fun a b => a.exprEqual b = true

theorem SameCells.refl (cells : List Data) : SameCells cells cells :=
  List.forall₂_same.mpr fun a _ => Data.exprEqual_refl a

theorem SameCells.symm {as bs : List Data} (h : SameCells as bs) :
    SameCells bs as :=
  h.flip.imp fun _ _ => Data.exprEqual_symm

theorem SameCells.trans {as bs cs : List Data} (hab : SameCells as bs)
    (hbc : SameCells bs cs) : SameCells as cs := by
  induction hab generalizing cs with
  | nil => exact hbc
  | cons h _ ih =>
      cases hbc with
      | cons h' hbc => exact .cons (Data.exprEqual_trans h h') (ih hbc)

theorem SameCells.rowResult {as bs : List Data} (h : SameCells as bs)
    (env : Env) : rowResult env as = rowResult env bs := by
  induction h with
  | nil => rfl
  | cons h _ ih =>
      simp only [Tcng.rowResult, List.foldr_cons] at ih ⊢
      rw [ih, Data.result, Data.outcome, Data.exprEqual_eval h env]
      rfl

/-- Rows that begin alike, with their remainders. -/
def CommonPrefix (cells : List Data) : List (List Data) → List (List Data) →
    Prop :=
  List.Forall₂ fun row rest => ∃ pre, SameCells cells pre ∧ row = pre ++ rest

/-- Common cells can be evaluated once for all rows. -/
theorem CommonPrefix.result {cells : List Data}
    {rows rests : List (List Data)} (h : CommonPrefix cells rows rests)
    (hne : rows ≠ []) (env : Env) :
    rowsResult env rows =
      (rowResult env cells).and (rowsResult env rests) := by
  induction h with
  | nil => exact absurd rfl hne
  | cons hrow hrows ih =>
      rename_i row rest rows rests
      obtain ⟨pre, hsame, rfl⟩ := hrow
      have hhead : rowResult env (pre ++ rest) =
          (rowResult env cells).and (rowResult env rest) := by
        rw [rowResult_append, hsame.rowResult]
      cases hrows with
      | nil =>
          simp only [rowsResult, List.foldr_cons, List.foldr_nil,
            Result.or_false, hhead]
      | cons hrow' hrows =>
          have htail := ih (List.cons_ne_nil _ _)
          simp only [rowsResult, List.foldr_cons] at htail ⊢
          rw [htail, hhead]
          rcases rowResult env cells with (_ | _) | d <;> rfl

/-! Every element on the way to the end of one alternative. -/

def paths : Data → List (List Data)
  | .op .logicalOr _ a b _ => paths a ++ paths b
  | .op .logicalAnd _ a b _ => (paths b).map (a :: ·)
  | d => [[d]]

/-- `q` goes on where `p` ends. -/
def ProperPrefix (p q : List Data) : Prop :=
  ∃ pre rest, q = pre ++ rest ∧ rest ≠ [] ∧ SameCells p pre

theorem ProperPrefix.length_lt {p q : List Data} (h : ProperPrefix p q) :
    p.length < q.length := by
  obtain ⟨pre, rest, rfl, hne, hsame⟩ := h
  rw [hsame.length_eq, List.length_append]
  exact Nat.lt_add_of_pos_right (List.length_pos_iff.mpr hne)

def Incomparable (p q : List Data) : Prop :=
  ¬ProperPrefix p q ∧ ¬ProperPrefix q p

theorem Incomparable.of_length_eq {p q : List Data}
    (h : p.length = q.length) : Incomparable p q :=
  ⟨fun hpq => Nat.ne_of_lt hpq.length_lt h,
    fun hqp => Nat.ne_of_lt hqp.length_lt h.symm⟩

theorem ProperPrefix.congr {p p' q q' : List Data} (h : ProperPrefix p q)
    (hp : SameCells p p') (hq : SameCells q q') : ProperPrefix p' q' := by
  obtain ⟨pre, rest, rfl, hne, hpre⟩ := h
  have hpre' := List.forall₂_take_append q' pre rest hq.symm
  have hrest' := List.forall₂_drop_append q' pre rest hq.symm
  refine ⟨_, _, (List.take_append_drop pre.length q').symm, ?_,
    hp.symm.trans (hpre.trans (SameCells.symm hpre'))⟩
  intro hnil
  rw [hnil] at hrest'
  cases hrest'
  exact hne rfl

theorem Incomparable.congr {p p' q q' : List Data} (h : Incomparable p q)
    (hp : SameCells p p') (hq : SameCells q q') : Incomparable p' q' :=
  ⟨fun hpq => h.1 (hpq.congr hp.symm hq.symm),
    fun hqp => h.2 (hqp.congr hq.symm hp.symm)⟩

/-- Cells in front change nothing. -/
theorem incomparable_append (cells : List Data) {p q : List Data} :
    Incomparable (cells ++ p) (cells ++ q) → Incomparable p q := by
  have hfront {p q : List Data} (h : ProperPrefix p q) :
      ProperPrefix (cells ++ p) (cells ++ q) := by
    obtain ⟨pre, rest, rfl, hne, hsame⟩ := h
    exact ⟨cells ++ pre, rest, (List.append_assoc ..).symm, hne,
      List.rel_append (SameCells.refl cells) hsame⟩
  intro h
  exact ⟨fun hpq => h.1 (hfront hpq), fun hqp => h.2 (hfront hqp)⟩

theorem paths_ofRow_append (cells : List Data) {rest : List Data}
    (hne : rest ≠ []) :
    paths (ofRow (cells ++ rest)) = (paths (ofRow rest)).map (cells ++ ·) := by
  induction cells with
  | nil => simp
  | cons cell cells ih =>
      rw [List.cons_append, ofRow_cons _ (by simp [hne])]
      change (paths (ofRow (cells ++ rest))).map (cell :: ·) = _
      rw [ih, List.map_map]
      rfl

theorem paths_ofRows {rows : List (List Data)} (hne : rows ≠ []) :
    paths (ofRows rows) = rows.flatMap fun row => paths (ofRow row) := by
  induction rows with
  | nil => exact absurd rfl hne
  | cons row rows ih =>
      cases rows with
      | nil => simp [ofRows]
      | cons next rows =>
          have htail := ih (List.cons_ne_nil _ _)
          change paths (ofRow row) ++ paths (ofRows (next :: rows)) = _
          rw [htail]
          rfl

theorem paths_ne_nil (d : Data) : paths d ≠ [] := by
  induction d with
  | op dsc t a b c iha ihb =>
      cases dsc <;> simp_all [paths]
  | _ => simp [paths]

/-- Expressions that are equal for `expr_equal` have equal paths. -/
theorem paths_same {d e : Data} (h : d.exprEqual e = true) :
    List.Forall₂ SameCells (paths d) (paths e) := by
  induction d generalizing e with
  | op dsc t a b c iha ihb =>
      obtain rfl | ⟨dsc', t', t'', x, y, z, a', b', c', hd, rfl, ha, hb, _⟩ :=
        Data.exprEqual_cases h
      · exact List.forall₂_same.mpr fun p _ => SameCells.refl p
      · cases hd
        cases dsc
        case logicalOr => exact List.rel_append (iha ha) (ihb hb)
        case logicalAnd =>
          have htail := ihb hb
          rw [paths, paths, List.forall₂_map_left_iff,
            List.forall₂_map_right_iff]
          exact htail.imp fun _ _ hsame => .cons ha hsame
        all_goals exact .cons (.cons h .nil) .nil
  | _ =>
      obtain rfl | ⟨_, _, _, _, _, _, _, _, _, hd, _⟩ :=
        Data.exprEqual_cases h
      · exact List.forall₂_same.mpr fun p _ => SameCells.refl p
      · cases hd

theorem paths_ofRow_same {as bs : List Data} (h : SameCells as bs) :
    List.Forall₂ SameCells (paths (ofRow as)) (paths (ofRow bs)) := by
  induction h with
  | nil => exact List.forall₂_same.mpr fun p _ => SameCells.refl p
  | cons h hs ih =>
      cases hs with
      | nil => exact paths_same h
      | cons h' hs =>
          change List.Forall₂ SameCells (List.map _ _) (List.map _ _)
          rw [List.forall₂_map_left_iff, List.forall₂_map_right_iff]
          exact ih.imp fun _ _ hsame => .cons h hsame

/-! Neighbouring rows that begin alike end together or go on together. -/

private theorem isElement_of_exprEqual {d e : Data} (hd : Nested d)
    (he : e.isElement = true) (h : d.exprEqual e = true) :
    d.isElement = true := by
  have hlogical {dsc : OpDsc} {t : DataType} {a b c : Data}
      (hdsc : dsc = .logicalAnd ∨ dsc = .logicalOr) :
      (Data.op dsc t a b c).exprEqual e = false := by
    rcases Data.isElement_cases he with he | ⟨p, rfl⟩ | ⟨decision, rfl⟩
    · obtain ⟨dsc', x, k, rfl, hrel, _⟩ := Data.isTest_cases he
      rcases hdsc with rfl | rfl <;> cases dsc' <;> first
        | contradiction
        | rfl
    · rcases hdsc with rfl | rfl <;> rfl
    · rfl
  cases hd with
  | element hd => exact hd
  | and => rw [hlogical (.inl rfl)] at h; cases h
  | or => rw [hlogical (.inr rfl)] at h; cases h

theorem paths_ofRow_elements {cells : List Data}
    (h : ∀ d ∈ cells, d.isElement = true) (hne : cells ≠ []) :
    paths (ofRow cells) = [cells] := by
  induction cells with
  | nil => exact absurd rfl hne
  | cons cell cells ih =>
      cases cells with
      | nil =>
          have hcell := h cell List.mem_cons_self
          rcases Data.isElement_cases hcell with ht | ⟨p, rfl⟩ | ⟨dec, rfl⟩
          · obtain ⟨dsc, x, k, rfl, hdsc, _⟩ := Data.isTest_cases ht
            cases dsc <;> first | contradiction | rfl
          · rfl
          · rfl
      | cons next cells =>
          have htail := ih (fun d hd => h d (List.mem_cons_of_mem cell hd))
            (List.cons_ne_nil _ _)
          change (paths (ofRow (next :: cells))).map (cell :: ·) = _
          rw [htail]
          rfl

theorem path_ne_nil {d : Data} {p : List Data} (h : p ∈ paths d) :
    p ≠ [] := by
  induction d generalizing p with
  | op dsc t a b c iha ihb =>
      cases dsc
      case logicalOr =>
        rcases List.mem_append.mp h with h | h
        · exact iha h
        · exact ihb h
      case logicalAnd =>
        obtain ⟨q, _, rfl⟩ := List.mem_map.mp h
        exact List.cons_ne_nil _ _
      all_goals
        rw [List.mem_singleton.mp h]
        exact List.cons_ne_nil _ _
  | _ =>
      rw [List.mem_singleton.mp h]
      exact List.cons_ne_nil _ _

/-- Only the last cell of a row may be an alternative. -/
theorem NestedRow.prefix_elements {pre rest : List Data}
    (h : NestedRow (pre ++ rest)) (hne : rest ≠ []) :
    ∀ d ∈ pre, d.isElement = true := by
  induction pre with
  | nil => intro d hd; cases hd
  | cons cell pre ih =>
      rw [List.cons_append] at h
      generalize hcells : cell :: (pre ++ rest) = cells at h
      cases h with
      | last h => simp [hne] at hcells
      | cons hd h =>
          obtain ⟨rfl, rfl⟩ := List.cons.inj hcells
          intro d hmem
          rcases List.mem_cons.mp hmem with rfl | hmem
          · exact hd
          · exact ih h d hmem

theorem NestedRow.of_elements {cells : List Data} (hne : cells ≠ [])
    (h : ∀ d ∈ cells, d.isElement = true) : NestedRow cells := by
  induction cells with
  | nil => exact absurd rfl hne
  | cons cell cells ih =>
      have hcell := h cell List.mem_cons_self
      cases cells with
      | nil => exact .last (.element hcell)
      | cons next cells =>
          exact .cons hcell (ih (List.cons_ne_nil _ _) fun d hd =>
            h d (List.mem_cons_of_mem cell hd))

theorem NestedRow.right_of_append {pre rest : List Data}
    (h : NestedRow (pre ++ rest)) (hne : rest ≠ []) : NestedRow rest := by
  induction pre with
  | nil => exact h
  | cons cell pre ih =>
      rw [List.cons_append] at h
      generalize hcells : cell :: (pre ++ rest) = cells at h
      cases h with
      | last h => simp [hne] at hcells
      | cons hd h =>
          obtain ⟨rfl, rfl⟩ := List.cons.inj hcells
          exact ih h

theorem NestedRow.concat {cells : List Data} {last : Data}
    (hcells : ∀ d ∈ cells, d.isElement = true) (hlast : Nested last) :
    NestedRow (cells ++ [last]) := by
  induction cells with
  | nil => exact .last hlast
  | cons cell cells ih =>
      exact .cons (hcells cell List.mem_cons_self)
        (ih fun d hd => hcells d (List.mem_cons_of_mem cell hd))

private theorem elements_of_same {as bs : List Data}
    (has : ∀ d ∈ as, Nested d) (hbs : ∀ d ∈ bs, d.isElement = true)
    (h : SameCells as bs) : ∀ d ∈ as, d.isElement = true := by
  induction h with
  | nil => exact hbs
  | cons h _ ih =>
      have htail := ih (fun d hd => has d (List.mem_cons_of_mem _ hd))
        fun d hd => hbs d (List.mem_cons_of_mem _ hd)
      intro d hd
      rcases List.mem_cons.mp hd with rfl | hd
      · exact isElement_of_exprEqual (has _ List.mem_cons_self)
          (hbs _ List.mem_cons_self) h
      · exact htail d hd

/-- Whether a row ends with the common cells agrees with its neighbour. -/
private theorem rests_agree {cells : List Data}
    {row rest row' rest' : List Data} {tail : List (List Data)}
    (hrow : NestedRow row) (hrow' : NestedRow row')
    (hpre : ∃ pre, SameCells cells pre ∧ row = pre ++ rest)
    (hpre' : ∃ pre, SameCells cells pre ∧ row' = pre ++ rest')
    (hchain : (paths (ofRow row) ++ (paths (ofRow row') ++ tail)).IsChain
      Incomparable) : rest = [] ↔ rest' = [] := by
  obtain ⟨pre, hsame, rfl⟩ := hpre
  obtain ⟨pre', hsame', rfl⟩ := hpre'
  have hpres : SameCells pre pre' := (SameCells.symm hsame).trans hsame'
  have hjoin := (List.isChain_append.mp hchain).2.2
  constructor
  · intro hrest
    subst hrest
    rw [List.append_nil] at hrow hjoin
    refine Classical.byContradiction fun hne => ?_
    have helements' := hrow'.prefix_elements hne
    have helements := elements_of_same hrow.cells helements' hpres
    rw [paths_ofRow_elements helements hrow.ne_nil,
      paths_ofRow_append pre' hne] at hjoin
    cases hp : paths (ofRow rest') with
    | nil => exact paths_ne_nil _ hp
    | cons p ps =>
        rw [hp] at hjoin
        refine (hjoin pre rfl (pre' ++ p) rfl).1 ⟨pre', p, rfl, ?_, hpres⟩
        exact path_ne_nil (hp ▸ List.mem_cons_self)
  · intro hrest
    subst hrest
    rw [List.append_nil] at hrow' hjoin
    refine Classical.byContradiction fun hne => ?_
    have helements := hrow.prefix_elements hne
    have helements' :=
      elements_of_same hrow'.cells helements (SameCells.symm hpres)
    rw [paths_ofRow_elements helements' hrow'.ne_nil,
      paths_ofRow_append pre hne] at hjoin
    obtain ⟨ps, p, hp⟩ := List.eq_nil_or_concat'
      (paths (ofRow rest)) |>.resolve_left (paths_ne_nil _)
    rw [hp, List.map_append] at hjoin
    refine (hjoin (pre ++ p) (by simp) pre' rfl).2
      ⟨pre, p, rfl, ?_, SameCells.symm hpres⟩
    exact path_ne_nil (d := ofRow rest) (hp ▸ List.mem_append_right ps
      List.mem_cons_self)

/-- Either all rows end with the common cells or all go on. -/
theorem CommonPrefix.rests {cells : List Data}
    {rows rests : List (List Data)} (h : CommonPrefix cells rows rests)
    (hrows : ∀ row ∈ rows, NestedRow row)
    (hchain : (rows.flatMap fun row => paths (ofRow row)).IsChain
      Incomparable) :
    (∀ rest ∈ rests, rest = []) ∨ ∀ rest ∈ rests, rest ≠ [] := by
  induction h with
  | nil => exact .inl fun rest h => nomatch h
  | cons hrow hall ih =>
      rename_i row rest rows rests
      have hhead := hrows row List.mem_cons_self
      have htail := ih (fun r hr => hrows r (List.mem_cons_of_mem row hr))
        hchain.right_of_append
      cases hall with
      | nil =>
          cases hrest : rest with
          | nil => exact .inl fun r hr => List.mem_singleton.mp hr
          | cons cell cells =>
              refine .inr fun r hr => ?_
              rw [List.mem_singleton.mp hr]
              exact List.cons_ne_nil _ _
      | cons hrow' hall =>
          rename_i row' rest' rows rests
          have hnext := hrows row' (List.mem_cons_of_mem row
            List.mem_cons_self)
          have hagree := rests_agree hhead hnext hrow hrow' hchain
          rcases htail with hnil | hne
          · refine .inl fun r hr => ?_
            rcases List.mem_cons.mp hr with rfl | hr
            · exact hagree.mpr (hnil rest' List.mem_cons_self)
            · exact hnil r hr
          · refine .inr fun r hr => ?_
            rcases List.mem_cons.mp hr with rfl | hr
            · exact fun hnil => hne rest' List.mem_cons_self (hagree.mp hnil)
            · exact hne r hr

/-! Incomparable paths stay incomparable. -/

theorem isChain_incomparable_congr {ps qs : List (List Data)}
    (h : List.Forall₂ SameCells ps qs) (hps : ps.IsChain Incomparable) :
    qs.IsChain Incomparable := by
  induction h with
  | nil => exact hps
  | cons hp hall ih =>
      cases hall with
      | nil => exact .singleton _
      | cons hp' hall =>
          rw [List.isChain_cons_cons] at hps ⊢
          exact ⟨hps.1.congr hp hp', ih hps.2⟩

/-- Repeated paths can be left out. -/
theorem isChain_drop {xs ys zs : List (List Data)}
    (hsame : List.Forall₂ SameCells xs ys) (hne : xs ≠ [])
    (h : (xs ++ (ys ++ zs)).IsChain Incomparable) :
    (xs ++ zs).IsChain Incomparable := by
  rw [List.isChain_append] at h
  obtain ⟨hxs, hrest, -⟩ := h
  rw [List.isChain_append] at hrest ⊢
  refine ⟨hxs, hrest.2.1, fun p hp q hq => ?_⟩
  obtain ⟨xs', x, rfl⟩ := List.eq_nil_or_concat' xs |>.resolve_left hne
  have hlast := List.forall₂_drop_append ys xs' [x] hsame.flip
  obtain ⟨y, _, hy, hnil, hdrop⟩ := List.forall₂_cons_right_iff.mp hlast
  obtain rfl := List.forall₂_nil_right_iff.mp hnil
  have hys : ys.getLast? = some y := by
    rw [← List.take_append_drop xs'.length ys, hdrop]
    simp
  rw [List.getLast?_concat, Option.mem_def, Option.some.injEq] at hp
  exact (hrest.2.2 y hys q hq).congr (hp ▸ SameCells.symm hy)
    (SameCells.refl q)

private theorem head?_append_of_ne_nil {α : Type} {xs : List α} (hne : xs ≠ [])
    (ys : List α) : (xs ++ ys).head? = xs.head? := by
  cases xs with
  | nil => exact absurd rfl hne
  | cons x xs => rfl

theorem isChain_drop_all {before ps after : List (List Data)}
    {rows : List (List (List Data))}
    (hsame : ∀ qs ∈ rows, List.Forall₂ SameCells ps qs) (hne : ps ≠ [])
    (h : (before ++ (ps ++ (rows.flatten ++ after))).IsChain Incomparable) :
    (before ++ (ps ++ after)).IsChain Incomparable := by
  induction rows with
  | nil => exact h
  | cons qs rows ih =>
      apply ih fun r hr => hsame r (List.mem_cons_of_mem qs hr)
      rw [List.flatten_cons, List.append_assoc, List.isChain_append] at h
      rw [List.isChain_append]
      refine ⟨h.1, isChain_drop (hsame qs List.mem_cons_self) hne h.2.1, ?_⟩
      rw [head?_append_of_ne_nil hne] at h ⊢
      exact h.2.2

/-! Sizes of rows. -/

def rowSize (cells : List Data) : Nat := (cells.map (·.size + 2)).sum

def rowsSize (rows : List (List Data)) : Nat := (rows.map rowSize).sum

theorem rowSize_append (as bs : List Data) :
    rowSize (as ++ bs) = rowSize as + rowSize bs := by
  rw [rowSize, List.map_append, List.sum_append]
  rfl

theorem rowsSize_append (as bs : List (List Data)) :
    rowsSize (as ++ bs) = rowsSize as + rowsSize bs := by
  rw [rowsSize, List.map_append, List.sum_append]
  rfl

theorem rowSize_pos {cells : List Data} (hne : cells ≠ []) :
    0 < rowSize cells := by
  cases cells with
  | nil => exact absurd rfl hne
  | cons cell cells => exact Nat.add_pos_left (Nat.succ_pos _) _

theorem size_ofRow {cells : List Data} (hne : cells ≠ []) :
    (ofRow cells).size + 2 = rowSize cells := by
  induction cells with
  | nil => exact absurd rfl hne
  | cons cell cells ih =>
      cases cells with
      | nil => rfl
      | cons next cells =>
          have htail := ih (List.cons_ne_nil _ _)
          rw [rowSize, List.map_cons, List.sum_cons]
          change _ = _ + rowSize (next :: cells)
          have hsize : (ofRow (cell :: next :: cells)).size =
              cell.size + (ofRow (next :: cells)).size + 2 := rfl
          rw [← htail, hsize]
          omega

theorem size_ofRows {rows : List (List Data)} (hne : rows ≠ [])
    (hrows : ∀ row ∈ rows, row ≠ []) :
    (ofRows rows).size + 2 = rowsSize rows := by
  induction rows with
  | nil => exact absurd rfl hne
  | cons row rows ih =>
      have hrow := size_ofRow (hrows row List.mem_cons_self)
      cases rows with
      | nil => exact hrow
      | cons next rows =>
          have htail := ih (List.cons_ne_nil _ _) fun r hr =>
            hrows r (List.mem_cons_of_mem row hr)
          rw [rowsSize, List.map_cons, List.sum_cons]
          change _ = _ + rowsSize (next :: rows)
          have hsize : (ofRows (row :: next :: rows)).size =
              (ofRow row).size + (ofRows (next :: rows)).size + 2 := rfl
          rw [← htail, ← hrow, hsize]
          omega

theorem exprEqual_size {d e : Data} (h : d.exprEqual e = true) :
    d.size = e.size := by
  induction d generalizing e with
  | op dsc t a b c iha ihb ihc =>
      obtain rfl | ⟨dsc', t', t'', x, y, z, a', b', c', hd, rfl, ha, hb, hc⟩ :=
        Data.exprEqual_cases h
      · rfl
      · cases hd
        rw [Data.size, Data.size, iha ha, ihb hb, ihc hc]
  | _ =>
      obtain rfl | ⟨_, _, _, _, _, _, _, _, _, hd, _⟩ :=
        Data.exprEqual_cases h
      · rfl
      · cases hd

theorem SameCells.rowSize {as bs : List Data} (h : SameCells as bs) :
    rowSize as = rowSize bs := by
  induction h with
  | nil => rfl
  | cons h _ ih =>
      simp only [Tcng.rowSize, List.map_cons, List.sum_cons] at ih ⊢
      rw [ih, exprEqual_size h]

theorem CommonPrefix.rowsSize {cells : List Data}
    {rows rests : List (List Data)} (h : CommonPrefix cells rows rests) :
    rowsSize rows = rows.length * rowSize cells + rowsSize rests := by
  induction h with
  | nil => simp [Tcng.rowsSize]
  | cons hrow _ ih =>
      obtain ⟨pre, hsame, rfl⟩ := hrow
      simp only [Tcng.rowsSize, List.map_cons, List.sum_cons,
        List.length_cons, rowSize_append] at ih ⊢
      rw [ih, hsame.rowSize, Nat.succ_mul]
      omega

end Tcng
