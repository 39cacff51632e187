import Tcng.FieldExpandSound

/-! Accesses of accesses are composed, and what comes out of `field_expand`. -/

namespace Tcng

open Filter ShortCircuit

variable {fields : Field → FieldMeaning} {role : FieldRole}
  {a b c d e : Data} {dsc : OpDsc} {t : DataType}

/-- With enough fuel. -/
def Reduces (d e : Data) : Prop :=
  ∀ᶠ fuel in atTop, reduceAccess fuel d = .ok e

private theorem reduceAccess_op {fuel : Nat} (hdsc : dsc ≠ .access) :
    reduceAccess (fuel + 1) (.op dsc t a b c) = (do
      let a ← reduceAccess fuel a
      let b ← reduceAccess fuel b
      let c ← reduceAccess fuel c
      return .op dsc t a b c) := by
  cases dsc <;> first | exact absurd rfl hdsc | rfl

namespace Reduces

theorem leaf (hop : d.isOp = false) : Reduces d d := by
  refine eventually_succ (.of_forall fun fuel => ?_)
  cases d with
  | op => cases hop
  | _ => rfl

theorem op {a' b' c' : Data} (hdsc : dsc ≠ .access) (ha : Reduces a a')
    (hb : Reduces b b') (hc : Reduces c c') :
    Reduces (.op dsc t a b c) (.op dsc t a' b' c') := by
  apply eventually_succ
  filter_upwards [ha, hb, hc] with fuel ha hb hc
  rw [reduceAccess_op hdsc, bind_ok ha, bind_ok hb, bind_ok hc]
  rfl

/-- An access that has been composed. -/
theorem access {t' : DataType} {root : Nat} {sum sum' : Data} {n : BitVec 32}
    (h : composeAccess t b (.unum n) a =
      .ok (.op .access t' (.fieldRoot root) sum c))
    (hsum : Reduces (if sum.type = .none then .unum 0 else sum) sum')
    (hc : c.isOp = false) :
    Reduces (.op .access t a b (.unum n))
      (.op .access t' (.fieldRoot root) sum' c) := by
  apply eventually_succ
  filter_upwards [hsum, leaf (d := .fieldRoot root) rfl, leaf hc]
    with fuel hsum hroot hc
  simp only [reduceAccess, bind_ok h, true_and, bind_ok hroot, bind_ok hsum,
    bind_ok hc]
  rfl

end Reduces

/-! ## Sums of offsets -/

/-- `r` is `d` with all accesses composed, up to the types of operators. -/
structure Composed (d r : Data) : Prop where
  type : d.type = r.type
  isOp : d.isOp = r.isOp
  leaf : d.isOp = false → d = r
  reduces : ∃ e, Reduces d e ∧ e.exprEqual r = true ∧ e.fieldFree = true

theorem Composed.refl (hop : d.isOp = false) (hfree : d.fieldFree = true) :
    Composed d d :=
  ⟨rfl, rfl, fun _ => rfl, d, .leaf hop, Data.exprEqual_refl d, hfree⟩

theorem Composed.op {a' b' c' : Data} (hdsc : dsc ≠ .access)
    (ha : Composed a a') (hb : Composed b b') (hc : Composed c c') :
    Composed (.op dsc t a b c) (.op dsc t a' b' c') := by
  obtain ⟨x, hx, heqx, hfreex⟩ := ha.reduces
  obtain ⟨y, hy, heqy, hfreey⟩ := hb.reduces
  obtain ⟨z, hz, heqz, hfreez⟩ := hc.reduces
  exact ⟨rfl, rfl, nofun, _, .op hdsc hx hy hz,
    by simp [Data.exprEqual, heqx, heqy, heqz],
    by simp [Data.fieldFree, hfreex, hfreey, hfreez]⟩

theorem Composed.eq_unum_iff {d' : Data} (h : Composed d d') (n : BitVec 32) :
    d = .unum n ↔ d' = .unum n := by
  constructor
  · rintro rfl
    exact (h.leaf rfl).symm
  · rintro rfl
    exact h.leaf h.isOp

theorem composed_plusEval {a' b' sum : Data} (ha : Composed a a')
    (hb : Composed b b') (h : a'.plusEval b' = .ok sum) :
    ∃ sum', a.plusEval b = .ok sum' ∧ Composed sum' sum := by
  have hnumbera : integerNumber a = integerNumber a' := by
    rw [integerNumber, ha.type]
    rfl
  have hnumberb : integerNumber b = integerNumber b' := by
    rw [integerNumber, hb.type]
    rfl
  have hzeroa := ha.eq_unum_iff 0
  have hzerob := hb.eq_unum_iff 0
  unfold Data.plusEval at h ⊢
  rw [← hnumbera, ← hnumberb, ← ha.type, ← hb.type, ← ha.isOp, ← hb.isOp] at h
  simp only [← hzeroa, ← hzerob] at h
  split at h
  case isTrue hzero =>
    cases h
    exact ⟨a, if_pos hzero, ha⟩
  case isFalse hzero =>
  rw [if_neg hzero]
  split at h
  case isTrue hzero =>
    cases h
    exact ⟨b, if_pos hzero, hb⟩
  case isFalse hzero =>
  rw [if_neg hzero]
  split at h
  case isTrue => cases h
  case isFalse hnumber =>
  rw [if_neg hnumber]
  split at h
  case isTrue hop =>
    rw [if_pos hop]
    have hplus {t : DataType} : Composed (.op .plus t a b .none)
        (.op .plus t a' b' .none) := .op (by decide) ha hb (.refl rfl rfl)
    split at h
    case isTrue htype =>
      cases h
      exact ⟨_, if_pos htype, hplus⟩
    case isFalse htype =>
    rw [if_neg htype]
    split at h
    case isTrue htype =>
      cases h
      exact ⟨_, if_pos htype, hplus⟩
    case isFalse htype => cases h
  case isFalse hop =>
    rw [if_neg hop]
    simp only [Bool.or_eq_true, not_or, Bool.not_eq_true] at hop
    obtain rfl := ha.leaf hop.1
    obtain rfl := hb.leaf hop.2
    refine ⟨sum, h, ?_⟩
    split at h
    · obtain ⟨x, -, h⟩ := bind_eq_ok.mp h
      obtain ⟨y, -, h⟩ := bind_eq_ok.mp h
      cases h
      exact .refl rfl rfl
    · split at h
      all_goals
        cases h
        exact .refl rfl rfl

theorem composed_composeOffset {a' b' sum : Data} (ha : Composed a a')
    (hb : Composed b b') (h : composeOffset a' b' = .ok sum) :
    ∃ sum', composeOffset a b = .ok sum' ∧ Composed sum' sum := by
  unfold composeOffset at h ⊢
  rw [← ha.type, ← hb.type] at h
  split at h
  case isTrue hnone =>
    cases h
    exact ⟨b, if_pos hnone, hb⟩
  case isFalse hnone =>
  rw [if_neg hnone]
  split at h
  case isTrue hsome =>
    obtain ⟨sum', hsum, hcomposed⟩ := composed_plusEval ha hb h
    exact ⟨sum', by rw [if_pos hsome, hsum], hcomposed⟩
  case isFalse hsome =>
    cases h
    exact ⟨a, if_neg hsome, ha⟩

/-- The same access, with its offset composed. -/
structure ComposedLink (link link' : AccessLink) : Prop where
  offset : Composed link.offset link'.offset
  size : link.size = link'.size

section

variable {links links' : List AccessLink}

theorem composed_sumOffsets {a' sum : Data} (ha : Composed a a')
    (hlinks : List.Forall₂ ComposedLink links links')
    (h : sumOffsets a' links' = .ok sum) :
    ∃ sum', sumOffsets a links = .ok sum' ∧ Composed sum' sum := by
  induction hlinks generalizing a a' with
  | nil =>
      cases h
      exact ⟨a, rfl, ha⟩
  | cons hlink hlinks ih =>
      obtain ⟨next, hnext, h⟩ := bind_eq_ok.mp h
      obtain ⟨next', hnext', hcomposed⟩ :=
        composed_composeOffset ha hlink.offset hnext
      obtain ⟨sum', hsum, hcomposed⟩ := ih hcomposed h
      exact ⟨sum', by rw [sumOffsets, bind_ok hnext', hsum], hcomposed⟩

theorem outermostSize_eq (hlinks : List.Forall₂ ComposedLink links links') :
    outermostSize links = outermostSize links' := by
  have hsizes : links.map AccessLink.size = links'.map AccessLink.size := by
    induction hlinks with
    | nil => rfl
    | cons hlink hlinks ih => rw [List.map_cons, List.map_cons, hlink.size, ih]
  rw [outermostSize, hsizes, outermostSize]

theorem sizeKept_of (hlinks : List.Forall₂ ComposedLink links links')
    (h : SizeKept links') : SizeKept links := by
  induction hlinks with
  | nil => trivial
  | @cons link link' links links' hlink hlinks ih =>
      have hplain : link.plain = link'.plain := by
        rw [AccessLink.plain, AccessLink.plain, hlink.offset.type, hlink.size]
      unfold SizeKept at h
      by_cases hp : link'.plain = true
      · rw [List.dropWhile_cons_of_pos hp] at h
        have htail := ih h
        unfold SizeKept
        rwa [List.dropWhile_cons_of_pos (hplain.trans hp)]
      · rw [List.dropWhile_cons_of_neg hp] at h
        unfold SizeKept
        rw [List.dropWhile_cons_of_neg (by rw [hplain]; exact hp)]
        cases hlinks with
        | nil => trivial
        | cons hnext hrest =>
            simp only at h ⊢
            rw [hlink.size, hnext.size, outermostSize_eq hrest]
            exact h

end

/-! ## Accesses -/

namespace Data

/-- The nested accesses, from the outermost on. -/
def accessLinks : Data → List AccessLink
  | op .access _ a b c => ⟨b, c.unumValue⟩ :: a.accessLinks
  | _ => []

def accessRoot : Data → Nat
  | op .access _ a _ _ => a.accessRoot
  | fieldRoot root => root
  | _ => 0

end Data

private theorem outermostSize_cons_zero {link : AccessLink}
    (links : List AccessLink) (h : link.size = 0) :
    outermostSize (link :: links) = outermostSize links := by
  simp [outermostSize, h]

private theorem outermostSize_cons {link : AccessLink}
    (links : List AccessLink) (h : link.size ≠ 0) :
    outermostSize (link :: links) = link.size := by
  rw [outermostSize, List.map_cons, List.find?_cons_of_pos (by simpa using h)]
  rfl

private theorem defaultSize_unum {n : BitVec 32} (hn : n ≠ 0) :
    defaultSize (.unum n) = .unum n := by
  rw [defaultSize, if_neg hn]

private theorem numeric_ne_fieldRoot
    (ht : t = .unum ∨ t = .ipv4 ∨ t = .ipv6) : t ≠ .fieldRoot := by
  rcases ht with rfl | rfl | rfl <;> decide

/-- Once there is a size, it is kept. -/
theorem composeAccess_sized {sum : Data} {n : BitVec 32}
    (ha : RawExpr .base a) (hn : n ≠ 0)
    (hsum : sumOffsets b a.accessLinks = .ok sum) :
    composeAccess t b (.unum n) a =
      .ok (.op .access t (.fieldRoot a.accessRoot) sum (.unum n)) := by
  generalize hrole : FieldRole.base = role at ha
  induction ha generalizing b with
  | field hf => exact hf.elim
  | fieldRoot r =>
      cases hsum
      rw [composeAccess, if_neg fun h => h.1 rfl, defaultSize_unum hn]
      · rfl
      · nofun
  | @inner t' a b' n' ht ha hb iha ihb =>
      obtain ⟨next, hnext, hsum⟩ := bind_eq_ok.mp hsum
      rw [composeAccess, if_neg fun h => numeric_ne_fieldRoot ht h.1,
        if_neg fun h => hn h.2, bind_ok hnext]
      rw [if_neg (show (Data.unum n).unumValue ≠ 0 from hn),
        defaultSize_unum hn]
      exact iha hsum rfl
  | precond2 h => exact h.elim
  | _ => cases hrole

/-- The size that the loop takes: one of the first two, not counting accesses
that are dropped. -/
def takenSize (links : List AccessLink) : BitVec 32 :=
  match links.dropWhile AccessLink.plain with
  | first :: second :: _ =>
      if first.size = 0 then if second.size = 0 then 8 else second.size
      else first.size
  | [first] => if first.size = 0 then 8 else first.size
  | [] => 8

private theorem outermostSize_dropWhile (links : List AccessLink) :
    outermostSize (links.dropWhile AccessLink.plain) = outermostSize links := by
  induction links with
  | nil => rfl
  | cons link links ih =>
      by_cases hplain : link.plain = true
      · have hsize : link.size = 0 := by
          simp only [AccessLink.plain, Bool.and_eq_true,
            decide_eq_true_iff] at hplain
          exact hplain.2
        rw [List.dropWhile_cons_of_pos hplain, ih,
          outermostSize_cons_zero _ hsize]
      · rw [List.dropWhile_cons_of_neg hplain]

/-- The size that is taken is the outermost one, or it is lost. -/
theorem takenSize_eq_iff (links : List AccessLink) :
    takenSize links = outermostSize links ↔ SizeKept links := by
  rw [← outermostSize_dropWhile]
  unfold takenSize SizeKept
  rcases links.dropWhile AccessLink.plain with _ | ⟨first, _ | ⟨second, rest⟩⟩
  · exact ⟨fun _ => trivial, fun _ => rfl⟩
  · refine ⟨fun _ => trivial, fun _ => ?_⟩
    by_cases hfirst : first.size = 0
    · rw [outermostSize_cons_zero _ hfirst]
      exact if_pos hfirst
    · rw [outermostSize_cons _ hfirst]
      exact if_neg hfirst
  · simp only
    by_cases hfirst : first.size = 0
    · rw [outermostSize_cons_zero _ hfirst, if_pos hfirst]
      by_cases hsecond : second.size = 0
      · rw [outermostSize_cons_zero _ hsecond, if_pos hsecond]
        exact ⟨fun h _ _ => h.symm, fun h => (h hfirst hsecond).symm⟩
      · rw [outermostSize_cons _ hsecond, if_neg hsecond]
        exact ⟨fun _ _ h => absurd h hsecond, fun _ => rfl⟩
    · rw [outermostSize_cons _ hfirst, if_neg hfirst]
      exact ⟨fun _ h => absurd h hfirst, fun _ => rfl⟩

private theorem takenSize_cons_plain {link : AccessLink}
    {links : List AccessLink} (h : link.plain = true) :
    takenSize (link :: links) = takenSize links := by
  rw [takenSize, List.dropWhile_cons_of_pos h, takenSize]

private theorem takenSize_one (link : AccessLink) :
    takenSize [link] = if link.size = 0 then 8 else link.size := by
  by_cases h : link.plain = true
  · have hsize : link.size = 0 := by
      simp only [AccessLink.plain, Bool.and_eq_true, decide_eq_true_iff] at h
      exact h.2
    rw [takenSize_cons_plain h, if_pos hsize]
    rfl
  · rw [takenSize, List.dropWhile_cons_of_neg h]

private theorem takenSize_two {link link' : AccessLink}
    {links : List AccessLink} (h : link.plain = false) :
    defaultSize (if link.size = 0 then .unum link'.size else .unum link.size) =
        .unum (takenSize (link :: link' :: links)) ∧
      takenSize (link :: link' :: links) ≠ 0 := by
  rw [takenSize, List.dropWhile_cons_of_neg (by simp [h])]
  simp only
  by_cases hsize : link.size = 0
  · rw [if_pos hsize, if_pos hsize]
    by_cases hsize' : link'.size = 0
    · rw [if_pos hsize', hsize']
      exact ⟨rfl, by decide⟩
    · rw [if_neg hsize', defaultSize_unum hsize']
      exact ⟨rfl, hsize'⟩
  · rw [if_neg hsize, if_neg hsize, defaultSize_unum hsize]
    exact ⟨rfl, hsize⟩

/-- Offsets are added; which size is taken is another question. -/
theorem composeAccess_ok {sum : Data} {n : BitVec 32} (ha : RawExpr .base a)
    (hsum : sumOffsets b a.accessLinks = .ok sum) :
    ∃ t', composeAccess t b (.unum n) a =
      .ok (.op .access t' (.fieldRoot a.accessRoot) sum
        (.unum (takenSize (⟨b, n⟩ :: a.accessLinks)))) := by
  generalize hrole : FieldRole.base = role at ha
  induction ha generalizing t b n with
  | field hf => exact hf.elim
  | fieldRoot r =>
      cases hsum
      refine ⟨t, ?_⟩
      rw [composeAccess, if_neg fun h => h.1 rfl,
        show (Data.fieldRoot r).accessLinks = [] from rfl, takenSize_one]
      · rfl
      · nofun
  | @inner t' a b' n' ht ha hb iha ihb =>
      obtain ⟨next, hnext, hsum⟩ := bind_eq_ok.mp hsum
      rw [composeAccess, if_neg fun h => numeric_ne_fieldRoot ht h.1]
      by_cases hplain : b.type = .none ∧ (Data.unum n).unumValue = 0
      · have hlink : (AccessLink.mk b n).plain = true := by
          simp only [AccessLink.plain, Bool.and_eq_true, decide_eq_true_iff]
          exact hplain
        rw [composeOffset, if_pos hplain.1] at hnext
        cases hnext
        rw [if_pos hplain, takenSize_cons_plain hlink]
        exact iha hsum rfl
      · have hlink : (AccessLink.mk b n).plain = false := by
          rw [← Bool.not_eq_true]
          simp only [AccessLink.plain, Bool.and_eq_true, decide_eq_true_iff]
          exact hplain
        obtain ⟨htaken, hsome⟩ := @takenSize_two ⟨b, n⟩ ⟨b', n'⟩
          a.accessLinks hlink
        refine ⟨t, ?_⟩
        rw [if_neg hplain, bind_ok hnext]
        exact (congrArg (composeAccess t next · a) htaken).trans
          (composeAccess_sized ha hsome hsum)
  | precond2 h => exact h.elim
  | _ => cases hrole

/-! ## Expressions without fields -/

private theorem truth_and (x y : Bool) :
    (Eval.truth x).and (Eval.truth y) = (Eval.truth (x && y) : Eval) := by
  cases x <;> rfl

private theorem truth_or (x y : Bool) :
    (Eval.truth x).or (Eval.truth y) = (Eval.truth (x || y) : Eval) := by
  cases x <;> rfl

private theorem truth_not (x : Bool) :
    (Eval.truth x).not = (Eval.truth (!x) : Eval) := by
  cases x <;> rfl

/-- What is known of an expression once its accesses can be composed. -/
def ReducesAs (fields : Field → FieldMeaning) : FieldRole → Data → Prop
  | .formula, d => (d.meaning fields).Composes → ∃ e, Reduces d e ∧
      e.fieldFree = true ∧ ∀ env,
        e.eval env .start = .truth ((d.meaning fields).truth env.packet)
  | .number, d => (d.meaning fields).Composes →
      Composed d (d.meaning fields).raw
  | .base, d => (d.meaning fields).composes →
      d.accessRoot = (d.meaning fields).root ∧
      List.Forall₂ ComposedLink d.accessLinks (d.meaning fields).links

theorem FieldExpr.conditions_true (h : RawExpr role d) (hrole : role ≠ .formula)
    (packet : Packet) : (d.meaning fields).conditions packet = true := by
  induction h with
  | op hdsc ht ha hb hc iha ihb ihc =>
      obtain ⟨haccess, -, hprecond, -⟩ := OpDsc.computes_cases hdsc
      simp [Data.meaning_operator haccess hprecond, FieldMeaning.operator,
        iha, ihb, ihc]
  | access n ht ha hb iha ihb | inner n ht ha hb iha ihb =>
      simp [Data.meaning, FieldMeaning.access, iha, ihb]
  | field hf => exact hf.elim
  | precond2 h => exact h.elim
  | none | unum | ipv4 | ipv6 | fieldRoot => rfl
  | _ => exact absurd rfl hrole

/-- A number is true if it is not zero. -/
theorem FieldExpr.eval_raw (h : RawExpr .number d) (env : Env) :
    (d.meaning fields).raw.eval env .start =
      .truth ((d.meaning fields).truth env.packet) := by
  rw [h.truth_number, FieldMeaning.tested, h.conditions_true (by simp),
    Bool.true_and]
  cases h with
  | @op dsc _ _ _ _ hdsc =>
      cases dsc <;> first | exact absurd hdsc (by decide) | rfl
  | _ => rfl

private theorem Composed.orZero {d' : Data} (h : Composed d d') :
    Composed (if d.type = .none then .unum 0 else d)
      (if d'.type = .none then .unum 0 else d') := by
  rw [← h.type]
  split
  · exact .refl rfl rfl
  · exact h

theorem FieldExpr.reduces (h : RawExpr role d) : ReducesAs fields role d := by
  induction h with
  | @test d hd h ih =>
      intro hcomposes
      obtain ⟨-, -, -, e, hreduces, hequal, hfree⟩ := ih hcomposes
      refine ⟨e, hreduces, hfree, fun env => ?_⟩
      rw [Data.exprEqual_eval hequal, h.eval_raw]
  | and ha hb iha ihb =>
      rintro ⟨⟨hpa, hpb, -⟩, -, -⟩
      obtain ⟨x, hx, hfreex, hevalx⟩ := iha hpa
      obtain ⟨y, hy, hfreey, hevaly⟩ := ihb hpb
      refine ⟨_, .op nofun hx hy (.leaf rfl), ?_, fun env => ?_⟩
      · simp [Data.fieldFree, hfreex, hfreey]
      · rw [Data.eval_logicalAnd, hevalx, hevaly, truth_and]
        rfl
  | or ha hb iha ihb =>
      rintro ⟨⟨hpa, hpb, -⟩, -, -⟩
      obtain ⟨x, hx, hfreex, hevalx⟩ := iha hpa
      obtain ⟨y, hy, hfreey, hevaly⟩ := ihb hpb
      refine ⟨_, .op nofun hx hy (.leaf rfl), ?_, fun env => ?_⟩
      · simp [Data.fieldFree, hfreex, hfreey]
      · rw [Data.eval_logicalOr, hevalx, hevaly, truth_or]
        rfl
  | not ha iha =>
      rintro ⟨⟨hpa, -⟩, -, -⟩
      obtain ⟨x, hx, hfreex, hevalx⟩ := iha hpa
      refine ⟨_, .op nofun hx (.leaf rfl) (.leaf rfl), ?_, fun env => ?_⟩
      · simp [Data.fieldFree, hfreex]
      · rw [Data.eval_logicalNot, hevalx, truth_not]
        rfl
  | none | unum | ipv4 | ipv6 => exact fun _ => .refl rfl rfl
  | op hdsc ht ha hb hc iha ihb ihc =>
      obtain ⟨haccess, -, hprecond, -⟩ := OpDsc.computes_cases hdsc
      intro hcomposes
      rw [Data.meaning_operator haccess hprecond] at hcomposes ⊢
      obtain ⟨hpa, hpb, hpc⟩ := hcomposes.parts
      exact .op haccess (iha hpa) (ihb hpb) (ihc hpc)
  | @access t a b n ht ha hb iha ihb =>
      rintro ⟨⟨hpa, hpb⟩, ⟨sum, hsum⟩, hsize⟩
      obtain ⟨hroot, hlinks⟩ := iha hpa
      have hb' := ihb hpb
      have hall : List.Forall₂ ComposedLink (⟨b, n⟩ :: a.accessLinks)
          (⟨(b.meaning fields).raw, n⟩ :: (a.meaning fields).links) :=
        .cons ⟨hb', rfl⟩ hlinks
      obtain ⟨sum', hsum', hcomposed⟩ :=
        composed_sumOffsets (.refl rfl rfl) hall hsum
      obtain ⟨t', hcompose⟩ := composeAccess_ok (t := t) (n := n) ha hsum'
      rw [(takenSize_eq_iff _).mpr (sizeKept_of hall hsize)] at hcompose
      obtain ⟨-, -, -, e, hreduces, hequal, hfree⟩ := hcomposed.orZero
      have hraw : ((Data.op .access t a b (.unum n)).meaning fields).raw =
          .op .access t (.fieldRoot a.accessRoot)
            (if sum.type = .none then .unum 0 else sum)
            (.unum (outermostSize (⟨b, n⟩ :: a.accessLinks))) := by
        have hoffset : FieldMeaning.offset
            ((Data.op .access t a b (.unum n)).meaning fields).links =
              if sum.type = .none then .unum 0 else sum := by
          rw [FieldMeaning.offset, hsum]
        rw [hroot, outermostSize_eq hall, ← hoffset]
        rfl
      rw [hraw]
      refine ⟨rfl, rfl, nofun, _, .access hcompose hreduces rfl, ?_, ?_⟩
      · rw [Data.exprEqual, hequal]
        simp [Data.exprEqual, Data.dataEqual]
      · simp [Data.fieldFree, hfree]
  | field hf => exact hf.elim
  | fieldRoot r => exact fun _ => ⟨rfl, .nil⟩
  | inner n ht ha hb iha ihb =>
      rintro ⟨hpa, hpb⟩
      obtain ⟨hroot, hlinks⟩ := iha hpa
      exact ⟨hroot, .cons ⟨ihb hpb, rfl⟩ hlinks⟩
  | precond2 h => exact h.elim

/-! ## Expansion as a whole -/

/-- Expansion ends, leaves no field, and keeps the truth of an expression
whose accesses can be composed. -/
theorem fieldExpand_preserves {table : FieldTable}
    {older : Field → Field → Prop} (htable : table.WellDefined older)
    (hd : FieldExpr (fun _ => True) False .formula d)
    (hcomposes : (d.meaning (table.meaning htable.acyclic)).Composes) :
    ∃ e, (∃ n, ∀ fuel, n ≤ fuel → fieldExpand table fuel d = .ok e) ∧
      e.fieldFree = true ∧ ∀ env, e.eval env .start =
        .truth ((d.meaning (table.meaning htable.acyclic)).truth
          env.packet) := by
  obtain ⟨expanded, hexpanded, hexpands, -⟩ :=
    hd.expands fun f _ => htable.expands f
  have hmeaning : expanded.meaning (table.meaning htable.acyclic) =
      d.meaning (table.meaning htable.acyclic) := by
    obtain ⟨fuel, hfuel⟩ := hexpands.exists
    exact meaning_doFieldExpand (FieldTable.meaning_eq htable) hfuel
  obtain ⟨d', conditions, hbubble, hmoved⟩ :=
    hexpanded.bubbles true nofun ⟨hexpanded.integerNumber, id⟩
  obtain ⟨hraw, hcomposes', htruth⟩ := hmoved.guarded
  rw [← hmeaning] at hcomposes ⊢
  obtain ⟨e, hreduces, hfree, heval⟩ := hraw.reduces (hcomposes' hcomposes)
  refine ⟨e, ?_, hfree, fun env => by rw [heval, htruth]⟩
  rw [← eventually_atTop]
  filter_upwards [hexpands, hreduces] with fuel hexpand hreduce
  rw [fieldExpand, bind_ok hexpand, bind_ok hbubble]
  exact hreduce

/-- `raw`, `field foo = raw[4].ns if raw[0].b == 4` and
`field bar = foo[2]`. -/
def nestedFields : FieldTable where
  name f := match f with
    | 1 => "foo"
    | 2 => "bar"
    | _ => "raw"
  access f := match f with
    | 1 => .op .access .unum (.field 0) (.unum 4) (.unum 16)
    | 2 => .op .access .unum (.field 1) (.unum 2) (.unum 0)
    | _ => .op .access .unum (.fieldRoot 0) .none (.unum 0)
  condition f := match f with
    | 1 => .eq (.op .access .unum (.field 0) (.unum 0) (.unum 8)) (.unum 4)
    | _ => .none

/-- `bar[1].b == 1`, or without the size `bar[1] == 1`. -/
def nestedTest (size : BitVec 32) : Data :=
  .eq (.op .access .unum (.field 2) (.unum 1) (.unum size)) (.unum 1)

theorem nestedFields_wellDefined : nestedFields.WellDefined (· < ·) where
  acyclic := Nat.lt_wfRel.wf
  isAccess f := by
    match f with
    | 0 | 1 | 2 | _ + 3 => rfl
  access f := by
    match f with
    | 1 => exact .inner 16 (.inl rfl) (.field Nat.zero_lt_one) (.unum 4)
    | 2 => exact .inner 0 (.inl rfl) (.field (by decide)) (.unum 2)
    | 0 | _ + 3 => exact .inner 0 (.inl rfl) (.fieldRoot 0) .none
  condition f := by
    match f with
    | 1 =>
        exact .inr (.test rfl (.op rfl (.inl rfl)
          (.access 8 (.inl rfl) (.field Nat.zero_lt_one) (.unum 0)) (.unum 4)
          .none))
    | 0 | 2 | _ + 3 => exact .inl rfl

theorem nestedTest_expr (size : BitVec 32) :
    FieldExpr (fun _ => True) False .formula (nestedTest size) :=
  .test rfl (.op rfl (.inl rfl) (.access size (.inl rfl) (.field trivial)
    (.unum 1)) (.unum 1) .none)

theorem fieldExpand_nested (fuel : Nat) :
    fieldExpand nestedFields (fuel + 20) (nestedTest 0) = .ok (.logicalAnd
      (.eq (.op .access .unum (.fieldRoot 0) (.unum 0) (.unum 8)) (.unum 4))
      (.eq (.op .access .unum (.fieldRoot 0) (.unum 7) (.unum 8))
        (.unum 1))) := by
  rfl

/-- The meaning of the fields. -/
noncomputable abbrev nestedMeaning : Field → FieldMeaning :=
  nestedFields.meaning nestedFields_wellDefined.acyclic

private theorem nestedMeaning_zero : nestedMeaning 0 =
    .access .unum { FieldMeaning.leaf (.fieldRoot 0) with root := 0 }
      (.leaf .none) (.leaf (.unum 0)) :=
  FieldTable.meaning_eq nestedFields_wellDefined 0

private theorem nestedMeaning_one : nestedMeaning 1 =
    .precond (.access .unum (nestedMeaning 0) (.leaf (.unum 4))
        (.leaf (.unum 16)))
      (.operator .eq .unum (.access .unum (nestedMeaning 0) (.leaf (.unum 0))
        (.leaf (.unum 8))) (.leaf (.unum 4)) (.leaf .none)) :=
  FieldTable.meaning_eq nestedFields_wellDefined 1

private theorem nestedMeaning_two : nestedMeaning 2 =
    .access .unum (nestedMeaning 1) (.leaf (.unum 2)) (.leaf (.unum 0)) :=
  FieldTable.meaning_eq nestedFields_wellDefined 2

/-- With the size of `foo`. -/
theorem raw_nestedTest : ((nestedTest 0).meaning nestedMeaning).raw =
    .eq (.op .access .unum (.fieldRoot 0) (.unum 7) (.unum 16)) (.unum 1) := by
  change Data.op .eq .unum (FieldMeaning.access .unum (nestedMeaning 2)
    (.leaf (.unum 1)) (.leaf (.unum 0))).raw (.unum 1) .none = _
  rw [nestedMeaning_two, nestedMeaning_one, nestedMeaning_zero]
  rfl

theorem composes_nestedTest :
    ((nestedTest 8).meaning nestedMeaning).Composes := by
  have hzero : (nestedMeaning 0).composes := by
    rw [nestedMeaning_zero]
    exact ⟨trivial, FieldMeaning.composes_leaf _⟩
  have hone : (nestedMeaning 1).composes := by
    rw [nestedMeaning_one]
    refine ⟨.of_nil ⟨⟨⟨hzero, FieldMeaning.composes_leaf _⟩, ?_, ?_⟩,
      FieldMeaning.composes_leaf _, FieldMeaning.composes_leaf _⟩ rfl,
      hzero, FieldMeaning.composes_leaf _⟩
    · rw [nestedMeaning_zero]
      exact ⟨_, rfl⟩
    · rw [nestedMeaning_zero]
      decide
  have htwo : (nestedMeaning 2).composes := by
    rw [nestedMeaning_two]
    exact ⟨hone, FieldMeaning.composes_leaf _⟩
  change (FieldMeaning.operator .eq .unum (.access .unum (nestedMeaning 2)
    (.leaf (.unum 1)) (.leaf (.unum 8))) (.leaf (.unum 1)) (.leaf .none)).Composes
  refine .of_nil ⟨⟨⟨htwo, FieldMeaning.composes_leaf _⟩, ?_, ?_⟩,
    FieldMeaning.composes_leaf _, FieldMeaning.composes_leaf _⟩ rfl
  · rw [nestedMeaning_two, nestedMeaning_one, nestedMeaning_zero]
    exact ⟨_, rfl⟩
  · rw [nestedMeaning_two, nestedMeaning_one, nestedMeaning_zero]
    decide

theorem fieldExpand_preserves_nested :
    ∃ e, (∃ n, ∀ fuel, n ≤ fuel →
        fieldExpand nestedFields fuel (nestedTest 8) = .ok e) ∧
      e.fieldFree = true ∧ ∀ env, e.eval env .start =
        .truth (((nestedTest 8).meaning nestedMeaning).truth env.packet) :=
  fieldExpand_preserves nestedFields_wellDefined (nestedTest_expr 8)
    composes_nestedTest

/-- Without a size of its own, `bar[1]` is eight bits of `foo`, not the
sixteen bits that `foo` has. -/
theorem fieldExpand_losesSize :
    ¬∀ (table : FieldTable) (older : Field → Field → Prop)
      (htable : table.WellDefined older) (d : Data),
      FieldExpr (fun _ => True) False .formula d →
      ∃ e, (∃ n, ∀ fuel, n ≤ fuel → fieldExpand table fuel d = .ok e) ∧
        e.fieldFree = true ∧ ∀ env, e.eval env .start =
          .truth ((d.meaning (table.meaning htable.acyclic)).truth
            env.packet) := by
  intro h
  obtain ⟨e, ⟨n, hn⟩, -, heval⟩ :=
    h nestedFields (· < ·) nestedFields_wellDefined (nestedTest 0)
      (nestedTest_expr 0)
  obtain rfl := Except.ok.inj
    ((fieldExpand_nested n).symm.trans (hn (n + 20) (Nat.le_add_right n 20)))
  -- byte 0 is four, byte 7 is one, and all others are zero
  have hpacket := congrArg Prod.snd
    (congrFun (heval (.steady (fun _ i => i == 5 || i == 63) fun _ => true)) [])
  have htruth : ((nestedTest 0).meaning nestedMeaning).truth
      (fun _ i => i == 5 || i == 63) = false := by
    have hnumber : FieldExpr (fun _ => True) False .number (nestedTest 0) :=
      .op rfl (.inl rfl) (.access 0 (.inl rfl) (.field trivial) (.unum 1))
        (.unum 1) .none
    rw [hnumber.truth_number, FieldMeaning.tested, raw_nestedTest]
    exact (Bool.and_comm _ _).trans (Bool.and_eq_false_imp.mpr (by decide))
  have hfalse := hpacket.trans (congrArg Result.truth htruth)
  revert hfalse
  decide

end Tcng
