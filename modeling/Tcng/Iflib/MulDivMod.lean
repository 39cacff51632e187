import Tcng.OpData

/-! Multiplication, division and remainder with a constant
(`mul_div_mod` of `iflib_arith.c`). -/

namespace Tcng

/-- The loop of `log_2` with the test for zero in front of it; -1 is `none`. -/
def log2Loop (v : BitVec 32) (ld : Nat) : Option Nat :=
  if h : v = 0 then none
  else if v.getLsbD 0 then
    if v = 1 then some ld else none
  else log2Loop (v >>> 1) (ld + 1)
termination_by v.toNat
decreasing_by
  have hpos : v.toNat ≠ 0 := fun hzero => h (BitVec.eq_of_toNat_eq hzero)
  rw [BitVec.toNat_ushiftRight, Nat.shiftRight_eq_div_pow]
  omega

/-- `log_2` -/
def log2 (v : BitVec 32) : Option Nat := log2Loop v 0

/-- `mul_opt`: the product of `x` and a constant, if it is rewritten. -/
def mulOpt (x : Data) (value : BitVec 8) : Except Error (Option Data) :=
  if value = 0 then .ok (some (.unum 0))
  else match log2 (value.setWidth 32) with
    | none => .ok none
    | some ld =>
        if ld = 0 then .ok (some x)
        else do
          let d ← shiftData .shiftLeft x (.unum (.ofNat 32 ld))
          return some d

/-- `div_l_opt` -/
def divLOpt (value : BitVec 8) : Option Data :=
  if value ≠ 0 then none else some (.unum 0)

/-- `div_r_opt` -/
def divROpt (x : Data) (value : BitVec 8) : Except Error (Option Data) :=
  match log2 (value.setWidth 32) with
  | none => .ok none
  | some ld =>
      if ld = 0 then .ok (some x)
      else do
        let d ← shiftData .shiftRight x (.unum (.ofNat 32 ld))
        return some d

/-- `mod_opt`: the operator is changed in place, and its constant too. -/
def modOpt (t : DataType) (x : Data) (n : BitVec 32) (c : Data)
    (value : BitVec 8) : Option Data :=
  if value = 1 then some (.unum 0)
  else match log2 (value.setWidth 32) with
    | none => none
    | some _ => some (.op .and t x (.unum (n - 1)) c)

/-- Whether `mul_div_mod` calls itself on its result. -/
inductive Reduction
  | again (d : Data)
  | done (d : Data)
  deriving DecidableEq, Repr

namespace Reduction

def result : Reduction → Data
  | again d => d
  | done d => d

/-- The helpers tell whether they have changed the expression. -/
def ofOpt (d : Data) : Option Data → Reduction
  | none => done d
  | some d => again d

end Reduction

/-- The constants are passed to the helpers as `uint8_t`. -/
def mulDivModNode (dsc : OpDsc) (t : DataType) (a b c : Data) :
    Except Error Reduction :=
  let d := .op dsc t a b c
  match dsc with
  | .mult =>
      match a, b with
      | .unum n, x => do
          let opt ← mulOpt x (n.setWidth 8)
          return .ofOpt d opt
      | x, .unum n => do
          let opt ← mulOpt x (n.setWidth 8)
          return .ofOpt d opt
      | _, _ => .ok (.done d)
  | .div =>
      match a, b with
      | .unum n, _ => .ok (.ofOpt d (divLOpt (n.setWidth 8)))
      | x, .unum n => do
          let opt ← divROpt x (n.setWidth 8)
          return .ofOpt d opt
      | x, y => .ok (.done (if x.exprEqual y then .unum 1 else d))
  | .mod =>
      match b with
      | .unum n => .ok (.ofOpt d (modOpt t a n c (n.setWidth 8)))
      | y => .ok (.done (if a.exprEqual y then .unum 0 else d))
  | _ => .ok (.done d)

def mulDivMod : Nat → Data → Except Error Data
  | 0, _ => .error .outOfFuel
  | fuel + 1, .op dsc t a b c => do
      let a ← mulDivMod fuel a
      let b ← mulDivMod fuel b
      let c ← mulDivMod fuel c
      let r ← mulDivModNode dsc t a b c
      match r with
      | .again d => mulDivMod fuel d
      | .done d => .ok d
  | _ + 1, d => .ok d

/-! ## One pass over the expression -/

/-- Operands first, and no second call. -/
def mulDivModPass : Data → Except Error Data
  | .op dsc t a b c => do
      let a ← mulDivModPass a
      let b ← mulDivModPass b
      let c ← mulDivModPass c
      let r ← mulDivModNode dsc t a b c
      return r.result
  | d => .ok d

/-- Nothing is left to rewrite. -/
def Reduced : Data → Prop
  | .op dsc t a b c =>
      Reduced a ∧ Reduced b ∧ Reduced c ∧
        mulDivModNode dsc t a b c = .ok (.done (.op dsc t a b c))
  | _ => True

theorem Reduced.of_leaf {d : Data} (h : d.isOp = false) : Reduced d := by
  cases d with
  | op => cases h
  | _ => trivial

theorem mulDivMod_of_reduced {d : Data} (h : Reduced d) {fuel : Nat}
    (hfuel : d.size ≤ fuel) : mulDivMod fuel d = .ok d := by
  have hpos := d.size_pos
  obtain ⟨fuel, rfl⟩ : ∃ n, fuel = n + 1 := ⟨fuel - 1, by omega⟩
  induction d generalizing fuel with
  | op dsc t a b c iha ihb ihc =>
      obtain ⟨ha, hb, hc, hnode⟩ := h
      simp only [Data.size] at hfuel
      have hpa := a.size_pos
      have hpb := b.size_pos
      have hpc := c.size_pos
      obtain ⟨fuel, rfl⟩ : ∃ n, fuel = n + 1 := ⟨fuel - 1, by omega⟩
      have ha := iha ha hpa fuel (by omega)
      have hb := ihb hb hpb fuel (by omega)
      have hc := ihc hc hpc fuel (by omega)
      simp only [mulDivMod, ha, hb, hc, hnode, bind, Except.bind]
  | _ => rfl

theorem mulDivModNode_other {dsc : OpDsc} (h : dsc ≠ .mult)
    (h' : dsc ≠ .div) (h'' : dsc ≠ .mod) (t : DataType) (a b c : Data) :
    mulDivModNode dsc t a b c = .ok (.done (.op dsc t a b c)) := by
  cases dsc <;> first | rfl | contradiction

/-- What becomes of `op dsc t a b c` is reduced, and not longer. -/
private def Shrinks (a b c e : Data) : Prop :=
  Reduced e ∧ e.size ≤ a.size + b.size + c.size + 1

private theorem shrinks_leaf {a b c e : Data} (h : e.isOp = false) :
    Shrinks a b c e := by
  refine ⟨.of_leaf h, ?_⟩
  cases e with
  | op => cases h
  | _ => simp [Data.size]

private theorem reduced_shiftData {dsc : OpDsc} {x e : Data} {n : BitVec 32}
    (hdsc : dsc = .shiftLeft ∨ dsc = .shiftRight) (hx : Reduced x)
    (h : shiftData dsc x (.unum n) = .ok e) :
    Reduced e ∧ e.size ≤ x.size + 3 := by
  rcases shiftData_cases h with rfl | hleaf
  · refine ⟨⟨hx, trivial, trivial, ?_⟩, by simp [Data.size]⟩
    rcases hdsc with rfl | rfl <;> rfl
  · refine ⟨.of_leaf hleaf, ?_⟩
    cases e with
    | op => cases hleaf
    | _ => simp [Data.size]

private theorem mulOpt_reduced {x e : Data} {value : BitVec 8}
    (hx : Reduced x) (h : mulOpt x value = .ok (some e)) :
    Reduced e ∧ e.size ≤ x.size + 3 := by
  simp only [mulOpt] at h
  split at h
  · cases h
    exact ⟨trivial, by simp [Data.size]⟩
  split at h
  · cases h
  split at h
  · cases h
    exact ⟨hx, by omega⟩
  obtain ⟨d, hshift, hd⟩ := bind_eq_ok.mp h
  cases hd
  exact reduced_shiftData (.inl rfl) hx hshift

private theorem divROpt_reduced {x e : Data} {value : BitVec 8}
    (hx : Reduced x) (h : divROpt x value = .ok (some e)) :
    Reduced e ∧ e.size ≤ x.size + 3 := by
  simp only [divROpt] at h
  split at h
  · cases h
  split at h
  · cases h
    exact ⟨hx, by omega⟩
  obtain ⟨d, hshift, hd⟩ := bind_eq_ok.mp h
  cases hd
  exact reduced_shiftData (.inr rfl) hx hshift

/-- Which helper a node comes to, and what the helper returns. -/
inductive Helper (t : DataType) (c : Data) :
    OpDsc → Data → Data → Reduction → Prop
  | keep {dsc a b} : Helper t c dsc a b (.done (.op dsc t a b c))
  | multLeft {n b opt} (h : mulOpt b (n.setWidth 8) = .ok opt) :
      Helper t c .mult (.unum n) b (.ofOpt (.op .mult t (.unum n) b c) opt)
  | multRight {a n opt} (h : mulOpt a (n.setWidth 8) = .ok opt) :
      Helper t c .mult a (.unum n) (.ofOpt (.op .mult t a (.unum n) c) opt)
  | divLeft {n b} :
      Helper t c .div (.unum n) b
        (.ofOpt (.op .div t (.unum n) b c) (divLOpt (n.setWidth 8)))
  | divRight {a n opt} (h : divROpt a (n.setWidth 8) = .ok opt) :
      Helper t c .div a (.unum n) (.ofOpt (.op .div t a (.unum n) c) opt)
  | divSame {a b} (h : a.exprEqual b = true) :
      Helper t c .div a b (.done (.unum 1))
  | modRight {a n} :
      Helper t c .mod a (.unum n) (.ofOpt (.op .mod t a (.unum n) c)
        (modOpt t a n c (n.setWidth 8)))
  | modSame {a b} (h : a.exprEqual b = true) :
      Helper t c .mod a b (.done (.unum 0))

theorem mulDivModNode_cases {dsc : OpDsc} {t : DataType} {a b c : Data}
    {r : Reduction} (h : mulDivModNode dsc t a b c = .ok r) :
    Helper t c dsc a b r := by
  by_cases hmult : dsc = .mult
  · subst hmult
    simp only [mulDivModNode] at h
    split at h
    · obtain ⟨opt, hopt, hr⟩ := bind_eq_ok.mp h
      rw [← Except.ok.inj hr]
      exact .multLeft hopt
    · obtain ⟨opt, hopt, hr⟩ := bind_eq_ok.mp h
      rw [← Except.ok.inj hr]
      exact .multRight hopt
    · rw [← Except.ok.inj h]
      exact .keep
  by_cases hdiv : dsc = .div
  · subst hdiv
    simp only [mulDivModNode] at h
    split at h
    · rw [← Except.ok.inj h]
      exact .divLeft
    · obtain ⟨opt, hopt, hr⟩ := bind_eq_ok.mp h
      rw [← Except.ok.inj hr]
      exact .divRight hopt
    · rw [← Except.ok.inj h]
      split
      · exact .divSame ‹_›
      · exact .keep
  by_cases hmod : dsc = .mod
  · subst hmod
    simp only [mulDivModNode] at h
    split at h
    · rw [← Except.ok.inj h]
      exact .modRight
    · rw [← Except.ok.inj h]
      split
      · exact .modSame ‹_›
      · exact .keep
  rw [mulDivModNode_other hmult hdiv hmod] at h
  rw [← Except.ok.inj h]
  exact .keep

/-- The node itself is one of the results, where nothing is rewritten. -/
private theorem shrinks_ofOpt {dsc : OpDsc} {t : DataType} {a b c : Data}
    (ha : Reduced a) (hb : Reduced b) (hc : Reduced c) {opt : Option Data}
    (hnode : mulDivModNode dsc t a b c = .ok (.ofOpt (.op dsc t a b c) opt))
    (hopt : ∀ e, opt = some e → Shrinks a b c e) :
    Shrinks a b c (Reduction.ofOpt (.op dsc t a b c) opt).result := by
  cases opt with
  | none => exact ⟨⟨ha, hb, hc, hnode⟩, by simp [Reduction.ofOpt,
      Reduction.result, Data.size]⟩
  | some e => exact hopt e rfl

private theorem mulDivModNode_shrinks {dsc : OpDsc} {t : DataType}
    {a b c : Data} {r : Reduction} (ha : Reduced a) (hb : Reduced b)
    (hc : Reduced c) (h : mulDivModNode dsc t a b c = .ok r) :
    Shrinks a b c r.result := by
  have hpos := c.size_pos
  cases mulDivModNode_cases h with
  | keep => exact ⟨⟨ha, hb, hc, h⟩, by simp [Reduction.result, Data.size]⟩
  | multLeft hopt =>
      apply shrinks_ofOpt ha hb hc h
      rintro e rfl
      obtain ⟨hred, hsize⟩ := mulOpt_reduced hb hopt
      exact ⟨hred, by simp only [Data.size]; omega⟩
  | multRight hopt =>
      apply shrinks_ofOpt ha hb hc h
      rintro e rfl
      obtain ⟨hred, hsize⟩ := mulOpt_reduced ha hopt
      exact ⟨hred, by simp only [Data.size]; omega⟩
  | divLeft =>
      apply shrinks_ofOpt ha hb hc h
      intro e he
      simp only [divLOpt] at he
      split at he
      · cases he
      · cases he
        exact shrinks_leaf rfl
  | divRight hopt =>
      apply shrinks_ofOpt ha hb hc h
      rintro e rfl
      obtain ⟨hred, hsize⟩ := divROpt_reduced ha hopt
      exact ⟨hred, by simp only [Data.size]; omega⟩
  | divSame | modSame => exact shrinks_leaf rfl
  | modRight =>
      apply shrinks_ofOpt ha hb hc h
      intro e he
      simp only [modOpt] at he
      split at he
      · cases he
        exact shrinks_leaf rfl
      split at he
      · cases he
      · cases he
        exact ⟨⟨ha, trivial, hc, rfl⟩, by simp [Data.size]⟩

theorem mulDivModPass_reduced {d e : Data} (h : mulDivModPass d = .ok e) :
    Reduced e ∧ e.size ≤ d.size := by
  induction d generalizing e with
  | op dsc t a b c iha ihb ihc =>
      simp only [mulDivModPass] at h
      obtain ⟨a', ha', h⟩ := bind_eq_ok.mp h
      obtain ⟨b', hb', h⟩ := bind_eq_ok.mp h
      obtain ⟨c', hc', h⟩ := bind_eq_ok.mp h
      obtain ⟨r, hr, h⟩ := bind_eq_ok.mp h
      rw [← Except.ok.inj h]
      obtain ⟨hreda, hsizea⟩ := iha ha'
      obtain ⟨hredb, hsizeb⟩ := ihb hb'
      obtain ⟨hredc, hsizec⟩ := ihc hc'
      obtain ⟨hred, hsize⟩ := mulDivModNode_shrinks hreda hredb hredc hr
      exact ⟨hred, by simp only [Data.size]; omega⟩
  | _ => cases h; exact ⟨trivial, Nat.le_refl _⟩

/-- The second call finds nothing to do. -/
theorem mulDivMod_eq_pass (d : Data) {fuel : Nat} (hfuel : d.size < fuel) :
    mulDivMod fuel d = mulDivModPass d := by
  obtain ⟨fuel, rfl⟩ : ∃ n, fuel = n + 1 := ⟨fuel - 1, by omega⟩
  induction d generalizing fuel with
  | op dsc t a b c iha ihb ihc =>
      simp only [Data.size] at hfuel
      have hpa := a.size_pos
      have hpb := b.size_pos
      have hpc := c.size_pos
      obtain ⟨fuel, rfl⟩ : ∃ n, fuel = n + 1 := ⟨fuel - 1, by omega⟩
      have iha := iha fuel (by omega)
      have ihb := ihb fuel (by omega)
      have ihc := ihc fuel (by omega)
      simp only [mulDivMod, mulDivModPass, iha, ihb, ihc]
      cases ha : mulDivModPass a with
      | error => rfl
      | ok a' =>
      cases hb : mulDivModPass b with
      | error => rfl
      | ok b' =>
      cases hc : mulDivModPass c with
      | error => rfl
      | ok c' =>
      simp only [bind, Except.bind]
      cases hr : mulDivModNode dsc t a' b' c' with
      | error => rfl
      | ok r =>
      obtain ⟨hreda, hsizea⟩ := mulDivModPass_reduced ha
      obtain ⟨hredb, hsizeb⟩ := mulDivModPass_reduced hb
      obtain ⟨hredc, hsizec⟩ := mulDivModPass_reduced hc
      obtain ⟨hred, hsize⟩ := mulDivModNode_shrinks hreda hredb hredc hr
      cases r with
      | done => rfl
      | again d =>
          simp only [Reduction.result] at hred hsize
          exact mulDivMod_of_reduced hred (by omega)
  | _ => rfl

end Tcng
