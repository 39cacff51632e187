import Tcng.Iflib.BundleRows

/-! Bundling keeps the meaning of a `||` chain in which no row goes on where a
neighbouring row ends. -/

namespace Tcng

open ShortCircuit

/-! The rectangle chosen lies in the matrix, and its rows agree. -/

structure Rectangle.Fits (m : List (List Data)) (r : Rectangle) : Prop where
  ors : 2 ≤ r.ors
  rows : r.first + r.ors ≤ m.length
  ands : 0 < r.ands
  long : ∀ row ∈ (m.drop r.first).take r.ors, r.ands ≤ row.length
  agree : cellsAgree m r.first r.ors r.ands = true

/-- Nothing has been found yet, or something that fits. -/
def Rectangle.Found (m : List (List Data)) (r : Rectangle) : Prop :=
  r.area = 0 ∨ r.Fits m

section

variable {m : List (List Data)} {first ors : Nat}

private theorem findAnds_found {left ands : Nat} {best : Rectangle}
    (hors : 2 ≤ ors) (hrows : first + ors ≤ m.length) (hands : 0 < ands)
    (hlong : ∀ row ∈ (m.drop first).take ors, ands + left ≤ row.length + 1)
    (hbest : best.Found m) : (findAnds m first ors left ands best).Found m := by
  induction left generalizing ands best with
  | zero => exact hbest
  | succ left ih =>
      unfold findAnds
      split
      · rename_i hagree
        apply ih (Nat.succ_pos ands)
        · intro row hrow
          have hrow' := hlong row hrow
          omega
        · split
          · refine .inr ⟨hors, hrows, hands, fun row hrow => ?_, hagree⟩
            have hrow' := hlong row hrow
            exact Nat.le_of_add_le_add_right
              (Nat.le_trans (Nat.add_le_add_left (Nat.succ_pos left) ands)
                hrow')
          · exact hbest
      · exact hbest

theorem minAnds_le {rows : List (List Data)} :
    ∀ row ∈ rows, minAnds rows ≤ row.length := by
  induction rows with
  | nil => exact fun row h => nomatch h
  | cons first rows ih =>
      cases rows with
      | nil =>
          intro row hrow
          rw [List.mem_singleton.mp hrow]
          exact Nat.le_refl _
      | cons next rows =>
          intro row hrow
          rcases List.mem_cons.mp hrow with rfl | hrow
          · exact Nat.min_le_left _ _
          · exact Nat.le_trans (Nat.min_le_right _ _) (ih row hrow)

private theorem findOrs_found {best : Rectangle} (hbest : best.Found m) :
    (findOrs m best first).Found m := by
  unfold findOrs
  apply List.foldlRecOn _ _ hbest
  intro best hbest k hk
  have hlt := List.mem_range.mp hk
  dsimp only
  split
  · exact hbest
  · apply findAnds_found (Nat.le_add_left 2 k) (by omega) Nat.one_pos _ hbest
    intro row hrow
    have hmin := minAnds_le row hrow
    omega

theorem bundleFindBest_found : (bundleFindBest m).Found m :=
  List.foldlRecOn _ _ (.inl rfl) fun _ hbest _ _ => findOrs_found hbest

end

private theorem sameCells_take {as bs : List Data} {n : Nat}
    (ha : n ≤ as.length) (hb : n ≤ bs.length)
    (h : ∀ j < n, (as.getD j .none).exprEqual (bs.getD j .none) = true) :
    SameCells (as.take n) (bs.take n) := by
  induction n generalizing as bs with
  | zero => exact .nil
  | succ n ih =>
      cases as with
      | nil => cases ha
      | cons a as =>
          cases bs with
          | nil => cases hb
          | cons b bs =>
              refine .cons (h 0 (Nat.succ_pos n)) ?_
              exact ih (Nat.le_of_succ_le_succ ha) (Nat.le_of_succ_le_succ hb)
                fun j hj => h (j + 1) (Nat.succ_lt_succ hj)

/-- The parts of the matrix the new expression is made of. -/
structure Rectangle.Parts (m : List (List Data)) (r : Rectangle)
    (before rect after : List (List Data)) (cells : List Data) : Prop where
  matrix : m = before ++ (rect ++ after)
  before_length : before.length = r.first
  rect_length : rect.length = r.ors
  cells_eq : cells = (m.getD r.first []).take r.ands
  cells_length : cells.length = r.ands
  head : ∃ rest tail, rect = (cells ++ rest) :: tail
  cells_ne_nil : cells ≠ []
  common : CommonPrefix cells rect (rect.map (List.drop r.ands))

theorem Rectangle.Fits.parts {m : List (List Data)} {r : Rectangle}
    (h : r.Fits m) :
    ∃ before rect after cells, r.Parts m before rect after cells := by
  have hors := h.ors
  have hrows := h.rows
  have hfirst : r.first < m.length := by omega
  have hrect : (m.drop r.first).take r.ors =
      m.getD r.first [] :: (m.drop (r.first + 1)).take (r.ors - 1) := by
    obtain ⟨n, hn⟩ := Nat.exists_eq_succ_of_ne_zero
      (Nat.pos_iff_ne_zero.mp (Nat.lt_of_lt_of_le Nat.two_pos hors))
    rw [List.drop_eq_getElem_cons hfirst, hn, List.take_succ_cons,
      Nat.succ_sub_one, List.getD_eq_getElem _ _ hfirst]
  have hhead : m.getD r.first [] ∈ (m.drop r.first).take r.ors := by
    rw [hrect]
    exact List.mem_cons_self
  have hlength := List.length_take_of_le (h.long _ hhead)
  refine ⟨m.take r.first, (m.drop r.first).take r.ors,
    m.drop (r.first + r.ors), (m.getD r.first []).take r.ands,
    ?_, ?_, ?_, rfl, hlength, ?_, ?_, ?_⟩
  · rw [← List.drop_drop, List.take_append_drop, List.take_append_drop]
  · exact List.length_take_of_le (Nat.le_of_lt hfirst)
  · rw [List.length_take, List.length_drop]
    omega
  · exact ⟨_, _, by rw [List.take_append_drop, hrect]⟩
  · intro hnil
    rw [hnil] at hlength
    exact Nat.ne_of_lt h.ands hlength
  · rw [CommonPrefix, List.forall₂_map_right_iff, List.forall₂_same]
    intro row hrow
    refine ⟨row.take r.ands, ?_, (List.take_append_drop r.ands row).symm⟩
    have hlong := h.long row hrow
    rw [hrect] at hrow
    rcases List.mem_cons.mp hrow with rfl | hrow
    · exact SameCells.refl _
    · apply sameCells_take (h.long _ hhead) hlong
      intro j hj
      have hagree := List.all_eq_true.mp h.agree row hrow
      exact List.all_eq_true.mp hagree j (List.mem_range.mpr hj)

/-! What the loops over cells and rows build. -/

theorem ofRow_concat (cells : List Data) (last : Data) :
    ofRow (cells ++ [last]) = andChain cells last := by
  induction cells with
  | nil => rfl
  | cons cell cells ih =>
      rw [List.cons_append, ofRow_cons _ (by simp), ih, andChain_cons]

theorem ofRows_append (before : List (List Data)) {rows : List (List Data)}
    (hne : rows ≠ []) :
    ofRows (before ++ rows) = orChain (before.map ofRow) (ofRows rows) := by
  induction before with
  | nil => rfl
  | cons row before ih =>
      rw [List.cons_append, ofRows_cons _ (by simp [hne]), ih, List.map_cons,
        orChain_cons]

theorem Formula.type_ne_none {d : Data} (h : Formula .plain d) :
    d.type ≠ .none := by
  intro hnone
  have hlogical := h.logical
  rw [Data.logical, integerNumber, hnone] at hlogical
  cases hlogical

theorem andCellsEval_ok {cells : List Data} {tmp : Data}
    (hcells : ∀ cell ∈ cells, Nested cell) (htmp : Formula .plain tmp) :
    andCellsEval cells tmp = .ok (andChain cells tmp) := by
  induction cells with
  | nil => rfl
  | cons cell cells ih =>
      have htail := fun d hd => hcells d (List.mem_cons_of_mem cell hd)
      have hchain := formula_andChain (fun d hd => (htail d hd).formula) htmp
      rw [andCellsEval, ih htail]
      exact (hcells cell List.mem_cons_self).formula.andOrEval not_false
        hchain .logicalAnd

theorem bundleAnds_ok {row cells : List Data} {start : Nat}
    {ands : Option Nat} (hcells : NestedRow cells)
    (hseg : segment row start ands = cells) :
    bundleAnds row start ands .none = .ok (ofRow cells) := by
  obtain ⟨init, last, rfl⟩ :=
    List.eq_nil_or_concat' cells |>.resolve_left hcells.ne_nil
  have hlast := hcells.cells last (by simp)
  have hinit := fun d hd => hcells.cells d (List.mem_append_left [last] hd)
  rw [bundleAnds, hseg]
  simp only [Data.type, if_true, List.getLast?_concat, List.dropLast_concat]
  rw [andCellsEval_ok hinit hlast.formula, ofRow_concat]

theorem bundleAnds_empty {row : List Data} {start : Nat} {ands : Option Nat}
    (hseg : segment row start ands = []) :
    bundleAnds row start ands .none = .ok .none := by
  rw [bundleAnds, hseg]
  rfl

theorem bundleAnds_add {row cells : List Data} {start : Nat}
    {ands : Option Nat} {add : Data} (hcells : ∀ cell ∈ cells, Nested cell)
    (hadd : Formula .plain add) (hseg : segment row start ands = cells) :
    bundleAnds row start ands add = .ok (ofRow (cells ++ [add])) := by
  rw [bundleAnds, hseg]
  simp only [hadd.type_ne_none, if_false]
  rw [andCellsEval_ok hcells hadd, ofRow_concat]

/-- `ofRow` of what is left of a row. -/
def restRow (start : Nat) (ands : Option Nat) (row : List Data) : Data :=
  ofRow (segment row start ands)

theorem orRowsEval_ok {start : Nat} {ands : Option Nat}
    {rows : List (List Data)} {tmp : Data}
    (hrows : ∀ row ∈ rows, NestedRow (segment row start ands))
    (htmp : Formula .plain tmp) :
    orRowsEval start ands rows tmp =
      .ok (orChain (rows.map (restRow start ands)) tmp) := by
  induction rows with
  | nil => rfl
  | cons row rows ih =>
      have htail := fun r hr => hrows r (List.mem_cons_of_mem row hr)
      have hrow := hrows row List.mem_cons_self
      have hformula : ∀ r ∈ rows.map (restRow start ands),
          Formula .plain r := by
        intro r hr
        obtain ⟨r', hr', rfl⟩ := List.mem_map.mp hr
        exact (htail r' hr').nested.formula
      have hchain := formula_orChain hformula htmp
      rw [orRowsEval, ih htail]
      simp only [bind, Except.bind, hchain.type_ne_none, if_false,
        bundleAnds_ok hrow rfl]
      exact hrow.nested.formula.andOrEval not_false hchain .logicalOr

theorem orRowsEval_none (start : Nat) (ands : Option Nat)
    (rows : List (List Data)) :
    orRowsEval start ands rows .none = .ok .none := by
  induction rows with
  | nil => rfl
  | cons row rows ih =>
      rw [orRowsEval, ih]
      rfl

theorem bundleOrs_ok {m rows : List (List Data)} {first : Nat}
    {ors : Option Nat} (start : Nat) (ands : Option Nat) (hne : rows ≠ [])
    (hrows : ∀ row ∈ rows, NestedRow (segment row start ands))
    (hseg : segment m first ors = rows) :
    bundleOrs m first ors start ands .none =
      .ok (ofRows (rows.map (segment · start ands))) := by
  obtain ⟨init, last, rfl⟩ :=
    List.eq_nil_or_concat' rows |>.resolve_left hne
  have hlast := hrows last (by simp)
  have hinit := fun r hr => hrows r (List.mem_append_left [last] hr)
  rw [bundleOrs, hseg]
  simp only [Data.type, if_true, List.getLast?_concat, List.dropLast_concat,
    bundleAnds_ok hlast rfl, bind, Except.bind]
  rw [orRowsEval_ok hinit hlast.nested.formula, List.map_append,
    ofRows_append _ (by simp), List.map_map]
  rfl

theorem bundleOrs_empty {m rows : List (List Data)} {first : Nat}
    {ors : Option Nat} (start : Nat) (ands : Option Nat) (hne : rows ≠ [])
    (hrows : ∀ row ∈ rows, segment row start ands = [])
    (hseg : segment m first ors = rows) :
    bundleOrs m first ors start ands .none = .ok .none := by
  obtain ⟨init, last, rfl⟩ :=
    List.eq_nil_or_concat' rows |>.resolve_left hne
  have hlast := hrows last (by simp)
  rw [bundleOrs, hseg]
  simp only [Data.type, if_true, List.getLast?_concat, List.dropLast_concat,
    bundleAnds_empty hlast, bind, Except.bind]
  exact orRowsEval_none start ands init

theorem bundleOrs_add {m rows : List (List Data)} {first start : Nat}
    {ors ands : Option Nat} {add : Data}
    (hrows : ∀ row ∈ rows, NestedRow (segment row start ands))
    (hadd : Formula .plain add) (hseg : segment m first ors = rows) :
    bundleOrs m first ors start ands add =
      .ok (orChain (rows.map (restRow start ands)) add) := by
  rw [bundleOrs, hseg]
  simp only [hadd.type_ne_none, if_false]
  exact orRowsEval_ok hrows hadd

/-! The new expression: one row in place of the rectangle. -/

/-- One row says the same as several. -/
structure Replaces (row : List Data) (rows : List (List Data)) : Prop where
  nested : NestedRow row
  result : ∀ env, rowResult env row = rowsResult env rows
  size : rowSize row < rowsSize rows
  chain : ∀ before after,
    (before ++ ((rows.flatMap fun row => paths (ofRow row)) ++ after)).IsChain
      Incomparable →
    (before ++ (paths (ofRow row) ++ after)).IsChain Incomparable

section

variable {cells : List Data} {rows rests : List (List Data)}

private theorem rests_nested (h : CommonPrefix cells rows rests)
    (hrows : ∀ row ∈ rows, NestedRow row) (hrests : ∀ rest ∈ rests, rest ≠ []) :
    ∀ rest ∈ rests, NestedRow rest := by
  induction h with
  | nil => exact fun rest h => nomatch h
  | cons hrow _ ih =>
      obtain ⟨pre, _, rfl⟩ := hrow
      intro rest hrest
      rcases List.mem_cons.mp hrest with rfl | hrest
      · exact (hrows _ List.mem_cons_self).right_of_append
          (hrests _ List.mem_cons_self)
      · exact ih (fun r hr => hrows r (List.mem_cons_of_mem _ hr))
          (fun r hr => hrests r (List.mem_cons_of_mem _ hr)) rest hrest

/-- Paths through the rows go through the common cells first. -/
private theorem paths_common (h : CommonPrefix cells rows rests)
    (hrests : ∀ rest ∈ rests, rest ≠ []) :
    List.Forall₂ SameCells (rows.flatMap fun row => paths (ofRow row))
      ((rests.flatMap fun rest => paths (ofRow rest)).map (cells ++ ·)) := by
  induction h with
  | nil => exact .nil
  | cons hrow _ ih =>
      obtain ⟨pre, hsame, rfl⟩ := hrow
      have htail := ih fun r hr => hrests r (List.mem_cons_of_mem _ hr)
      rw [List.flatMap_cons, List.flatMap_cons, List.map_append,
        paths_ofRow_append pre (hrests _ List.mem_cons_self)]
      refine List.rel_append ?_ htail
      rw [List.forall₂_map_left_iff, List.forall₂_map_right_iff,
        List.forall₂_same]
      exact fun p _ => List.rel_append (SameCells.symm hsame)
        (SameCells.refl p)

theorem replaces_rest (h : CommonPrefix cells rows rests)
    (hlength : 2 ≤ rows.length) (hne : cells ≠ [])
    (hcells : ∀ d ∈ cells, d.isElement = true)
    (hrows : ∀ row ∈ rows, NestedRow row)
    (hrests : ∀ rest ∈ rests, rest ≠ []) :
    Replaces (cells ++ [ofRows rests]) rows := by
  have hrows_ne : rows ≠ [] := by
    intro hnil
    rw [hnil] at hlength
    cases hlength
  have hrests_ne : rests ≠ [] := by
    intro hnil
    rw [hnil] at h
    exact hrows_ne (List.forall₂_nil_right_iff.mp h)
  have hnested := rests_nested h hrows hrests
  have hlast := nested_ofRows hrests_ne hnested
  refine ⟨.concat hcells hlast, fun env => ?_, ?_, fun before after hchain => ?_⟩
  · rw [rowResult_append, h.result hrows_ne, ← result_ofRows hrests_ne hnested]
    exact congrArg _ (Result.and_true _)
  · have hlast_size := size_ofRows hrests_ne hrests
    have htwice := Nat.mul_le_mul_right (rowSize cells) hlength
    have hpos := rowSize_pos hne
    have hsingle : rowSize [ofRows rests] = (ofRows rests).size + 2 := rfl
    rw [rowSize_append, h.rowsSize, hsingle, hlast_size]
    omega
  · rw [paths_ofRow_append cells (List.cons_ne_nil _ _)]
    change (before ++ ((paths (ofRows rests)).map (cells ++ ·) ++
      after)).IsChain _
    rw [paths_ofRows hrests_ne]
    refine isChain_incomparable_congr (List.rel_append
      (List.forall₂_same.mpr fun p _ => SameCells.refl p)
      (List.rel_append (paths_common h hrests)
        (List.forall₂_same.mpr fun p _ => SameCells.refl p))) hchain

private theorem rows_same (h : CommonPrefix cells rows rests)
    (hrests : ∀ rest ∈ rests, rest = []) :
    ∀ row ∈ rows, SameCells cells row := by
  induction h with
  | nil => exact fun row h => nomatch h
  | cons hrow _ ih =>
      obtain ⟨pre, hsame, rfl⟩ := hrow
      intro row hrow
      rcases List.mem_cons.mp hrow with rfl | hrow
      · rw [hrests _ List.mem_cons_self, List.append_nil]
        exact hsame
      · exact ih (fun r hr => hrests r (List.mem_cons_of_mem _ hr)) row hrow

private theorem rowsResult_empty {rests : List (List Data)} (hne : rests ≠ [])
    (hrests : ∀ rest ∈ rests, rest = []) (env : Env) :
    rowsResult env rests = .truth true := by
  cases rests with
  | nil => exact absurd rfl hne
  | cons rest rests =>
      rw [hrests rest List.mem_cons_self]
      rfl

theorem replaces_exact {tail : List (List Data)}
    (h : CommonPrefix cells (cells :: tail) rests) (htail : tail ≠ [])
    (hcells : NestedRow cells) (hrests : ∀ rest ∈ rests, rest = []) :
    Replaces cells (cells :: tail) := by
  have hne : rests ≠ [] := by
    intro hnil
    rw [hnil] at h
    cases h
  have hsame := rows_same h hrests
  refine ⟨hcells, fun env => ?_, ?_, fun before after hchain => ?_⟩
  · rw [h.result (List.cons_ne_nil _ _), rowsResult_empty hne hrests,
      Result.and_true]
  · obtain ⟨row, tail, rfl⟩ := List.exists_cons_of_ne_nil htail
    have hrow := hsame row (List.mem_cons_of_mem _ List.mem_cons_self)
    have hpos := rowSize_pos hcells.ne_nil
    simp only [rowsSize, List.map_cons, List.sum_cons, ← hrow.rowSize]
    omega
  · rw [List.flatMap_cons, List.append_assoc] at hchain
    refine isChain_drop_all (fun qs hqs => ?_) (paths_ne_nil _) hchain
    obtain ⟨row, hrow, rfl⟩ := List.mem_map.mp hqs
    exact paths_ofRow_same (hsame row (List.mem_cons_of_mem _ hrow))

end

section

variable {m : List (List Data)} {r : Rectangle}
    {before rect after : List (List Data)} {cells : List Data}

/-- Rebuilding the rows around the new one. -/
private theorem rebuild_around (h : r.Parts m before rect after cells)
    (hrows : ∀ row ∈ m, NestedRow row) {new new' : Data} {row : List Data}
    (hrow : NestedRow row)
    (hnew : bundleOrs m r.first (some r.ors) r.ands none .none = .ok new)
    (hnew' : bundleAnds (m.getD r.first []) 0 (some r.ands) new = .ok new')
    (heq : new' = ofRow row) :
    bundleRebuild m r = .ok (ofRows (before ++ (row :: after))) := by
  subst heq
  have hbefore : ∀ row ∈ before, NestedRow row := fun row hmem =>
    hrows row (h.matrix ▸ List.mem_append_left _ hmem)
  have hafter : ∀ row ∈ after, NestedRow row := fun row hmem =>
    hrows row (h.matrix ▸ List.mem_append_right _
      (List.mem_append_right _ hmem))
  have hsegment : segment m (r.first + r.ors) none = after := by
    rw [segment, h.matrix, ← List.append_assoc, List.drop_left']
    rw [List.length_append, h.before_length, h.rect_length]
  have hlength : r.first + r.ors + after.length = m.length := by
    rw [h.matrix, List.length_append, List.length_append, h.before_length,
      h.rect_length, Nat.add_assoc]
  have hrows' : ∀ x ∈ row :: after, NestedRow x := by
    intro x hx
    rcases List.mem_cons.mp hx with rfl | hx
    · exact hrow
    · exact hafter x hx
  have hnested := nested_ofRows (List.cons_ne_nil row after) hrows'
  have hfront : (if r.first = 0 then .ok (ofRows (row :: after))
      else bundleOrs m 0 (some r.first) 0 none (ofRows (row :: after))) =
      Except.ok (ε := Error) (ofRows (before ++ (row :: after))) := by
    split
    · rename_i hzero
      have hnil : before = [] :=
        List.eq_nil_of_length_eq_zero (h.before_length.trans hzero)
      rw [hnil, List.nil_append]
    · rw [ofRows_append before (List.cons_ne_nil row after)]
      apply bundleOrs_add hbefore hnested.formula
      rw [segment, h.matrix, List.drop_zero, ← h.before_length,
        List.take_left']
      rfl
  rw [bundleRebuild, hnew]
  simp only [bind, Except.bind, hnew']
  cases hcase : after with
  | nil =>
      rw [hcase, List.length_nil, Nat.add_zero] at hlength
      rw [if_pos hlength]
      rw [hcase] at hfront
      exact hfront
  | cons next tail =>
      have hne : after ≠ [] := hcase ▸ List.cons_ne_nil next tail
      have hrest := bundleOrs_ok 0 none hne hafter
        hsegment
      rw [hcase, List.length_cons] at hlength
      have hmap : after.map (segment · 0 none) = after := List.map_id' after
      have hor : andOrEval .logicalOr (ofRow row) (ofRows after) =
          .ok (ofRows (row :: after)) := by
        rw [ofRows_cons row hne]
        exact hrow.nested.formula.andOrEval not_false
          (nested_ofRows hne hafter).formula .logicalOr
      rw [if_neg (by omega), hrest, hmap]
      simp only [hor]
      exact hcase ▸ hfront

theorem bundleRebuild_ok (h : r.Parts m before rect after cells)
    (hors : 2 ≤ r.ors) (hrows : ∀ row ∈ m, NestedRow row)
    (hchain : (rect.flatMap fun row => paths (ofRow row)).IsChain
      Incomparable) :
    ∃ row, Replaces row rect ∧
      bundleRebuild m r = .ok (ofRows (before ++ (row :: after))) := by
  have hrect : ∀ row ∈ rect, NestedRow row := fun row hmem =>
    hrows row (h.matrix ▸ List.mem_append_right _
      (List.mem_append_left _ hmem))
  obtain ⟨rest, tail, hhead⟩ := h.head
  have hne : rect ≠ [] := hhead ▸ List.cons_ne_nil _ _
  have hfirst : NestedRow (cells ++ rest) :=
    hrect _ (hhead ▸ List.mem_cons_self)
  have hors' : segment m r.first (some r.ors) = rect := by
    rw [segment, h.matrix, List.drop_left' h.before_length,
      List.take_left' h.rect_length]
  have hands : segment (m.getD r.first []) 0 (some r.ands) = cells := by
    rw [segment, List.drop_zero, h.cells_eq]
  have hlength : 2 ≤ rect.length := h.rect_length ▸ hors
  have hdrop : (cells ++ rest).drop r.ands = rest :=
    List.drop_left' h.cells_length
  rcases h.common.rests hrect hchain with hnil | hcons
  · have hrest : rest = [] := by
      exact hdrop ▸ hnil _ (List.mem_map_of_mem (hhead ▸ List.mem_cons_self))
    subst hrest
    rw [List.append_nil] at hhead hfirst
    have htail : tail ≠ [] := by
      intro hnil
      rw [hhead, hnil] at hlength
      cases hlength with | step h => cases h
    refine ⟨cells, ?_, ?_⟩
    · have hcommon := h.common
      rw [hhead] at hcommon ⊢
      exact replaces_exact hcommon htail hfirst (hhead ▸ hnil)
    · have hempty := bundleOrs_empty r.ands none hne
        (fun row hrow => hnil _ (List.mem_map_of_mem hrow)) hors'
      exact rebuild_around h hrows hfirst hempty (bundleAnds_ok hfirst hands)
        rfl
  · have hrest : rest ≠ [] := by
      exact hdrop ▸ hcons _ (List.mem_map_of_mem (hhead ▸ List.mem_cons_self))
    have helements := hfirst.prefix_elements hrest
    have hreplaces := replaces_rest h.common hlength h.cells_ne_nil helements
      hrect hcons
    refine ⟨_, hreplaces, ?_⟩
    have hnested := rests_nested h.common hrect hcons
    have hgo := bundleOrs_ok r.ands none hne
      (fun row hrow => hnested _ (List.mem_map_of_mem hrow)) hors'
    have hlast := nested_ofRows (by simpa using hne) hnested
    exact rebuild_around h hrows hreplaces.nested hgo
      (bundleAnds_add (fun d hd => .element (helements d hd)) hlast.formula
        hands) rfl

end

/-! The whole pass. -/

theorem bundle_unchanged {fuel : Nat} {d : Data}
    (h : d.contains .logicalOr = false) (hfuel : d.size ≤ fuel) :
    bundle fuel d = .ok d := by
  induction fuel generalizing d with
  | zero => exact absurd hfuel (Nat.not_le_of_gt d.size_pos)
  | succ fuel ih =>
      cases d with
      | op dsc t a b c =>
          simp only [Data.contains, Bool.or_eq_false_iff, beq_eq_false_iff_ne]
            at h
          obtain ⟨hdsc, ⟨ha, hb⟩, hc⟩ := h
          simp only [Data.size] at hfuel
          have hmap : bundle (fuel + 1) (.op dsc t a b c) =
              mapOperands (bundle fuel) (.op dsc t a b c) := by
            cases dsc
            case logicalOr => exact absurd rfl hdsc
            all_goals rfl
          rw [hmap, mapOperands, ih ha (by omega), ih hb (by omega),
            ih hc (by omega)]
          rfl
      | _ => rfl

theorem isElement_no_or {d : Data} (h : d.isElement = true) :
    d.contains .logicalOr = false := by
  rcases Data.isElement_cases h with h | ⟨p, rfl⟩ | ⟨decision, rfl⟩
  · obtain ⟨dsc, x, k, rfl, hdsc, hx, hk⟩ := Data.isTest_cases h
    have hne : dsc ≠ .logicalOr := by
      rintro rfl
      cases hdsc
    have hnx : x.contains .logicalOr = false := Data.contains_numeric hx rfl
    have hnk : k.contains .logicalOr = false := Data.contains_numeric hk rfl
    simp [Data.contains, hne, hnx, hnk]
  · rfl
  · rfl

theorem size_ofRows_lt {before rect after : List (List Data)}
    {row : List Data} (hrows : ∀ r ∈ before ++ (rect ++ after), NestedRow r)
    (hrect : rect ≠ []) (h : Replaces row rect) :
    (ofRows (before ++ (row :: after))).size <
      (ofRows (before ++ (rect ++ after))).size := by
  have hne := fun r hr => (hrows r hr).ne_nil
  have hold : (ofRows (before ++ (rect ++ after))).size + 2 = _ :=
    size_ofRows (by simp [hrect]) hne
  have hnew : (ofRows (before ++ (row :: after))).size + 2 = _ :=
    size_ofRows (by simp) fun r hr => by
      rcases List.mem_append.mp hr with hr | hr
      · exact hne r (List.mem_append_left _ hr)
      · rcases List.mem_cons.mp hr with rfl | hr
        · exact h.nested.ne_nil
        · exact hne r (List.mem_append_right _ (List.mem_append_right _ hr))
  have hlt := h.size
  have hcons : rowsSize (row :: after) = rowSize row + rowsSize after := rfl
  rw [rowsSize_append, rowsSize_append] at hold
  rw [rowsSize_append, hcons] at hnew
  omega

/-- Rebuilding around a rectangle keeps everything the next round needs. -/
private theorem rebuild_step {d : Data} (hd : Nested d)
    (hchain : (paths d).IsChain Incomparable) {r : Rectangle}
    (hfound : r.Found (bundleMakeMatrix d)) (harea : r.area ≠ 0) :
    ∃ d', bundleRebuild (bundleMakeMatrix d) r = .ok d' ∧ Nested d' ∧
      (paths d').IsChain Incomparable ∧ d'.size < d.size ∧
      ∀ env, d'.result env = d.result env := by
  obtain ⟨hne, hrows, hofRows⟩ := hd.matrix
  have hfits := hfound.resolve_left harea
  obtain ⟨before, rect, after, cells, hparts⟩ := hfits.parts
  have hrect_ne : rect ≠ [] := by
    obtain ⟨rest, tail, hhead⟩ := hparts.head
    exact hhead ▸ List.cons_ne_nil _ _
  have hmatrix := hparts.matrix
  have hpaths : paths d = (before.flatMap fun row => paths (ofRow row)) ++
      ((rect.flatMap fun row => paths (ofRow row)) ++
        (after.flatMap fun row => paths (ofRow row))) := by
    rw [← hofRows, paths_ofRows hne, hmatrix, List.flatMap_append,
      List.flatMap_append]
  rw [hpaths] at hchain
  obtain ⟨row, hreplaces, hok⟩ := bundleRebuild_ok hparts hfits.ors hrows
    hchain.right_of_append.left_of_append
  have hnew : ∀ x ∈ before ++ (row :: after), NestedRow x := by
    intro x hx
    rcases List.mem_append.mp hx with hx | hx
    · exact hrows x (hmatrix ▸ List.mem_append_left _ hx)
    · rcases List.mem_cons.mp hx with rfl | hx
      · exact hreplaces.nested
      · exact hrows x (hmatrix ▸ List.mem_append_right _
          (List.mem_append_right _ hx))
  have hnew_ne : before ++ (row :: after) ≠ [] := by simp
  refine ⟨_, hok, nested_ofRows hnew_ne hnew, ?_, ?_, fun env => ?_⟩
  · rw [paths_ofRows hnew_ne, List.flatMap_append, List.flatMap_cons]
    exact hreplaces.chain _ _ hchain
  · rw [← hofRows, hmatrix]
    rw [hmatrix] at hrows
    exact size_ofRows_lt hrows hrect_ne hreplaces
  · rw [result_ofRows hnew_ne hnew, ← hofRows, result_ofRows hne hrows, hmatrix,
      rowsResult_append, rowsResult_append, rowsResult_append,
      ← hreplaces.result]
    rfl

private theorem bundle_nested {fuel : Nat} {d : Data} (hd : Nested d)
    (hchain : (paths d).IsChain Incomparable) (hfuel : d.size ≤ fuel) :
    ∃ d', bundle fuel d = .ok d' ∧ Nested d' ∧
      ∀ env, d'.result env = d.result env := by
  induction fuel generalizing d with
  | zero => exact absurd hfuel (Nat.not_le_of_gt d.size_pos)
  | succ fuel ih =>
      have hnone : (0 : Nat) < fuel → bundle fuel .none = .ok .none :=
        fun h => bundle_unchanged rfl h
      cases hd with
      | element h =>
          exact ⟨d, bundle_unchanged (isElement_no_or h) hfuel, .element h,
            fun env => rfl⟩
      | and ha hb =>
          rename_i a b
          simp only [Data.size] at hfuel
          have hchain' : (paths b).IsChain Incomparable := by
            refine List.IsChain.imp ?_ (List.isChain_map _ |>.mp hchain)
            exact fun p q => incomparable_append [a]
          obtain ⟨b', hok, hnested, hresult⟩ := ih hb hchain' (by omega)
          refine ⟨.logicalAnd a b', ?_, .and ha hnested, fun env => ?_⟩
          · have hstep : bundle (fuel + 1) (.logicalAnd a b) =
                mapOperands (bundle fuel) (.logicalAnd a b) := rfl
            rw [hstep, mapOperands, hok, hnone (by omega),
              bundle_unchanged (isElement_no_or ha) (by omega)]
            rfl
          · have hformula := Data.formula_of_isElement ha
            rw [hformula.result_and, hformula.result_and, hresult]
      | or ha hb =>
          rename_i a b
          let best := bundleFindBest (bundleMakeMatrix (.logicalOr a b))
          have hstep : bundle (fuel + 1) (.logicalOr a b) =
              if best.area < bundleThreshold
              then mapOperands (bundle fuel) (.logicalOr a b)
              else bundleRebuild (bundleMakeMatrix (.logicalOr a b)) best >>=
                bundle fuel := rfl
          rw [hstep]
          split
          · simp only [Data.size] at hfuel
            obtain ⟨hleft, hright, -⟩ := List.isChain_append.mp hchain
            obtain ⟨a', hoka, hnesteda, hresulta⟩ := ih ha hleft (by omega)
            obtain ⟨b', hokb, hnestedb, hresultb⟩ := ih hb hright (by omega)
            refine ⟨.logicalOr a' b', ?_, .or hnesteda hnestedb, fun env => ?_⟩
            · rw [mapOperands, hoka, hokb, hnone (by omega)]
              rfl
            · rw [hnesteda.formula.result_or, ha.formula.result_or, hresulta,
                hresultb]
          · rename_i harea
            have harea' : best.area ≠ 0 := by
              intro hzero
              rw [hzero] at harea
              exact harea Nat.two_pos
            obtain ⟨d', hok, hnested, hpaths, hsize, hresult⟩ :=
              rebuild_step (.or ha hb) hchain bundleFindBest_found harea'
            obtain ⟨d'', hok', hnested', hresult'⟩ :=
              ih hnested hpaths (by omega)
            refine ⟨d'', ?_, hnested', fun env => ?_⟩
            · rw [hok]
              exact hok'
            · rw [hresult', hresult]

/-- Bundling keeps the outcome of an `||` chain of `&&` chains where no row is
the beginning of a neighbouring one. -/
theorem bundle_outcome {rows : List (List Data)} (hne : rows ≠ [])
    (hrows : ∀ row ∈ rows, row ≠ [])
    (helements : ∀ row ∈ rows, ∀ d ∈ row, d.isElement = true)
    (hchain : rows.IsChain Incomparable) {fuel : Nat}
    (hfuel : (ofRows rows).size ≤ fuel) :
    ∃ d, bundle fuel (ofRows rows) = .ok d ∧
      ∀ env, d.outcome env = (ofRows rows).outcome env := by
  have hnested : ∀ row ∈ rows, NestedRow row := fun row hrow =>
    .of_elements (hrows row hrow) (helements row hrow)
  have hpaths : paths (ofRows rows) = rows := by
    rw [paths_ofRows hne, List.flatMap_congr fun row hrow =>
      paths_ofRow_elements (helements row hrow) (hrows row hrow)]
    exact List.flatMap_singleton' rows
  rw [← hpaths] at hchain
  obtain ⟨d, hok, hd, hresult⟩ :=
    bundle_nested (nested_ofRows hne hnested) hchain hfuel
  refine ⟨d, hok, fun env => ?_⟩
  rw [hd.formula.outcome_eq, (nested_ofRows hne hnested).formula.outcome_eq,
    hresult]

theorem bundle_outcome_two_rows :
    ∃ d, bundle 20 (ofRows [[.conform 1, .decision .drDrop],
        [.conform 1, .decision .drContinue]]) = .ok d ∧
      ∀ env, d.outcome env = (ofRows [[.conform 1, .decision .drDrop],
        [.conform 1, .decision .drContinue]]).outcome env := by
  apply bundle_outcome
  · exact List.cons_ne_nil _ _
  · decide
  · decide
  · exact .cons_cons (.of_length_eq rfl) (.singleton _)
  · decide

/-- Where the shorter row is first, an operand is missing; where it is last,
the longer one is forgotten. -/
theorem bundle_prefix_rows :
    (∀ fuel, bundle (fuel + 1)
      (ofRows [[.conform 1], [.conform 1, .decision .drDrop]]) =
        .error (.typeError2 .logicalOr .none .decision)) ∧
    (∀ fuel, bundle (fuel + 3)
      (ofRows [[.conform 1, .decision .drDrop], [.conform 1]]) =
        .ok (.conform 1)) ∧
    (Data.conform 1).outcome (.steady (fun _ _ => false) fun _ => true) ≠
      (ofRows [[.conform 1, .decision .drDrop], [.conform 1]]).outcome
        (.steady (fun _ _ => false) fun _ => true) :=
  ⟨fun _ => rfl, fun _ => rfl, by decide⟩

end Tcng
