import Tcng.Formula

/-! Expressions that cannot be told apart on a packet. -/

namespace Tcng

open ShortCircuit

/-- Two expressions are the same number, wherever they stand. -/
structure SameNumber (packet : Packet) (d e : Data) : Prop where
  num : ∀ base, d.num packet base = e.num packet base
  width : d.width = e.width
  accessWidth : ∀ t a b,
    (Data.op .access t a b d).width = (Data.op .access t a b e).width
  root : ∀ current, d.rootOr current = e.rootOr current
  police : ∀ p, d = .police p ↔ e = .police p

namespace SameNumber

variable {packet : Packet}

theorem refl (packet : Packet) (d : Data) : SameNumber packet d d :=
  ⟨fun _ => rfl, rfl, fun _ _ _ => rfl, fun _ => rfl, fun _ => Iff.rfl⟩

theorem trans {d e f : Data} (h : SameNumber packet d e)
    (h' : SameNumber packet e f) : SameNumber packet d f where
  num base := (h.num base).trans (h'.num base)
  width := h.width.trans h'.width
  accessWidth t a b := (h.accessWidth t a b).trans (h'.accessWidth t a b)
  root current := (h.root current).trans (h'.root current)
  police p := (h.police p).trans (h'.police p)

theorem op {a b c a' b' c' : Data} (ha : SameNumber packet a a')
    (hb : SameNumber packet b b') (hc : SameNumber packet c c') (dsc : OpDsc)
    (t : DataType) :
    SameNumber packet (.op dsc t a b c) (.op dsc t a' b' c') where
  num base := by
    cases dsc <;>
      simp only [Data.num, ha.num, hb.num, hc.num, ha.width, hb.width,
        ha.root, hb.root]
  width := by
    cases dsc
    case access =>
      exact (hc.accessWidth t a b).trans (by cases c' <;> rfl)
    all_goals simp only [Data.width, ha.width, hb.width]
  accessWidth _ _ _ := rfl
  root _ := rfl
  police _ := iff_of_false nofun nofun

end SameNumber

/-- One of two expressions may take the place of the other one in any
expression, as far as `packet` goes. -/
structure Agree (packet : Packet) (d e : Data) : Prop where
  num : ∀ base, d.num packet base = e.num packet base
  eval : ∀ env base, env.packet = packet → d.eval env base = e.eval env base
  width : d.width = e.width
  accessWidth : ∀ t a b,
    (Data.op .access t a b d).width = (Data.op .access t a b e).width
  root : ∀ current, d.rootOr current = e.rootOr current
  police : ∀ p, d = .police p ↔ e = .police p

namespace Agree

variable {packet : Packet} {d e : Data}

theorem refl (packet : Packet) (d : Data) : Agree packet d d :=
  ⟨fun _ => rfl, fun _ _ _ => rfl, rfl, fun _ _ _ => rfl, fun _ => rfl,
    fun _ => Iff.rfl⟩

theorem trans {f : Data} (h : Agree packet d e) (h' : Agree packet e f) :
    Agree packet d f where
  num base := (h.num base).trans (h'.num base)
  eval env base henv := (h.eval env base henv).trans (h'.eval env base henv)
  width := h.width.trans h'.width
  accessWidth t a b := (h.accessWidth t a b).trans (h'.accessWidth t a b)
  root current := (h.root current).trans (h'.root current)
  police p := (h.police p).trans (h'.police p)

theorem sameNumber (h : Agree packet d e) : SameNumber packet d e :=
  ⟨h.num, h.width, h.accessWidth, h.root, h.police⟩

/-- What a bucket operator does depends on its bucket. -/
theorem op_eval_bucket {dsc : OpDsc} {t : DataType}
    {a b c a' b' c' : Data} (ha : ∀ p, a = .police p ↔ a' = .police p)
    (hnum : ∀ base, (Data.op dsc t a b c).num packet base =
      (Data.op dsc t a' b' c').num packet base)
    (hdsc : dsc = .conform ∨ dsc = .count) (env : Env) (base : Base)
    (henv : env.packet = packet) :
    (Data.op dsc t a b c).eval env base =
      (Data.op dsc t a' b' c').eval env base := by
  subst henv
  by_cases hp : ∃ p, a = .police p
  · obtain ⟨p, rfl⟩ := hp
    cases (ha p).mp rfl
    rcases hdsc with rfl | rfl <;> rfl
  · have hp' : ∀ p, a' ≠ .police p := fun p h =>
      hp ⟨p, (ha p).mpr h⟩
    rcases hdsc with rfl | rfl
    · cases a with
      | police p => exact absurd ⟨p, rfl⟩ hp
      | _ =>
          cases a' with
          | police p => exact absurd rfl (hp' p)
          | _ => simp only [Data.eval, hnum]
    · cases a with
      | police p => exact absurd ⟨p, rfl⟩ hp
      | _ =>
          cases a' with
          | police p => exact absurd rfl (hp' p)
          | _ => simp only [Data.eval, hnum]

private theorem op_eval {a b c a' b' c' : Data} (ha : Agree packet a a')
    (hb : Agree packet b b') (hc : Agree packet c c') (dsc : OpDsc)
    (t : DataType) (env : Env) (base : Base) (henv : env.packet = packet) :
    (Data.op dsc t a b c).eval env base =
      (Data.op dsc t a' b' c').eval env base := by
  have hnum :=
    (ha.sameNumber.op hb.sameNumber hc.sameNumber dsc t).num
  by_cases hdsc : dsc = .conform ∨ dsc = .count
  · exact op_eval_bucket ha.police hnum hdsc env base henv
  subst henv
  have hevala := fun base => ha.eval env base rfl
  have hevalb := fun base => hb.eval env base rfl
  cases dsc
  case conform => exact absurd (.inl rfl) hdsc
  case count => exact absurd (.inr rfl) hdsc
  all_goals simp only [Data.eval, hevala, hevalb, hb.num, hb.root, hnum]

/-- Operators keep agreement of their operands. -/
theorem op {a b c a' b' c' : Data} (ha : Agree packet a a')
    (hb : Agree packet b b') (hc : Agree packet c c') (dsc : OpDsc)
    (t : DataType) :
    Agree packet (.op dsc t a b c) (.op dsc t a' b' c') where
  num := (ha.sameNumber.op hb.sameNumber hc.sameNumber dsc t).num
  eval := op_eval ha hb hc dsc t
  width := (ha.sameNumber.op hb.sameNumber hc.sameNumber dsc t).width
  accessWidth _ _ _ := rfl
  root _ := rfl
  police _ := iff_of_false nofun nofun

/-- Two tests that hold together. -/
theorem of_relations {dsc dsc' : OpDsc} (h : dsc.relational = true)
    (h' : dsc'.relational = true) {t t' : DataType} {a b c a' b' c' : Data}
    (hrel : ∀ base,
      relOp dsc (a.num packet base) (b.num packet base) =
        relOp dsc' (a'.num packet base) (b'.num packet base)) :
    Agree packet (.op dsc t a b c) (.op dsc' t' a' b' c') where
  num base := by
    have hvalue {dsc : OpDsc} (h : dsc.relational = true) (t : DataType)
        (a b c : Data) : (Data.op dsc t a b c).num packet base =
          (relOp dsc (a.num packet base) (b.num packet base)).toNat := by
      cases dsc <;> first | rfl | cases h
    rw [hvalue h, hvalue h', hrel]
  eval env base henv := by
    subst henv
    rw [Data.eval_relational h, Data.eval_relational h', hrel]
  width := by
    have hwidth {dsc : OpDsc} (h : dsc.relational = true) (t : DataType)
        (a b c : Data) : (Data.op dsc t a b c).width = 32 := by
      cases dsc <;> first | rfl | cases h
    rw [hwidth h, hwidth h']
  accessWidth _ _ _ := rfl
  root _ := rfl
  police _ := iff_of_false nofun nofun

/-- A test with a known result. -/
theorem of_result {dsc : OpDsc} (h : dsc.relational = true)
    {t : DataType} {a b c : Data} (value : Bool)
    (hrel : ∀ base,
      relOp dsc (a.num packet base) (b.num packet base) = value) :
    Agree packet (boolUnum value) (.op dsc t a b c) where
  num base := by
    have hvalue : (Data.op dsc t a b c).num packet base =
        (relOp dsc (a.num packet base) (b.num packet base)).toNat := by
      cases dsc <;> first | rfl | cases h
    rw [hvalue, hrel]
    cases value <;> rfl
  eval env base henv := by
    subst henv
    rw [Data.eval_relational h, Data.eval_boolUnum, hrel]
  width := by cases dsc <;> first | rfl | cases h
  accessWidth _ _ _ := by cases value <;> rfl
  root _ := by cases value <;> rfl
  police _ := by
    refine iff_of_false ?_ nofun
    cases value <;> nofun

end Agree

end Tcng
