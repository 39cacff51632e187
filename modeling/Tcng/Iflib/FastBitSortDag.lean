import Tcng.Iflib.FastBitSort

/-! `quick_dag` goes through all nodes below a node and mends the edges of each
one after those further down; `sort_dag` does this once for each bit. -/

namespace Tcng.FastBit

open DecisionTree

variable {k : Nat} {currMark : Bool} {bits₀ bits bits' : Bits}
  {V X X' : Nat → Prop} {bit : Nat} {n : Number} {t u : DecisionTree Number}

/-- The diagram at the beginning of an iteration: everything that is reached is
in `V`. -/
structure Live (k : Nat) (bits : Bits) (V : Nat → Prop) : Prop where
  bounded : ∀ a, V a → a < bits.size
  closed : ∀ a edge b, V a → bits.next a edge = some b → V b
  ordered : ∀ a, V a → ∃ t, bits.Unfolds a t ∧ Ordered k t

/-- The same decisions, in the same place as far as the bits above `k` say. -/
structure Similar (k : Nat) (t u : DecisionTree Number) : Prop where
  decide : ∀ answer, u.decide answer = t.decide answer
  upper : upper (k + 1) u.root = upper (k + 1) t.root

/-- During an iteration that began with `bits₀`, the nodes in `X` are done, and
the others as they were. -/
structure Progress (k : Nat) (currMark : Bool) (bits₀ : Bits) (V : Nat → Prop)
    (bits : Bits) (X : Nat → Prop) : Prop where
  done : Done k currMark bits X
  size : bits₀.size ≤ bits.size
  similar : ∀ a t, V a → X a → bits₀.Unfolds a t →
    ∃ u, bits.Unfolds a u ∧ Similar k t u
  keptNumber : ∀ a, V a → ¬X a → bits.number a = bits₀.number a
  keptNext : ∀ a, V a → ¬X a → bits.next a = bits₀.next a

/-- What a call of `quick_dag` adds to what is done. -/
structure Visit (k : Nat) (currMark : Bool) (bits₀ : Bits) (V : Nat → Prop)
    (bits : Bits) (X : Nat → Prop) (bits' : Bits) (X' : Nat → Prop) : Prop where
  progress : Progress k currMark bits₀ V bits' X'
  grows : ∀ a, X a → X' a
  marks : ∀ a, V a → bits.mark a = currMark → bits'.mark a = currMark
  marked : ∀ a, V a → bits'.mark a = currMark → bits.mark a = currMark ∨ X' a
  unmarked : ∀ a, V a → X' a → X a ∨ bits.mark a ≠ currMark

namespace Visit

theorem refl (h : Progress k currMark bits₀ V bits X) :
    Visit k currMark bits₀ V bits X bits X where
  progress := h
  grows _ ha := ha
  marks _ _ ha := ha
  marked _ _ ha := .inl ha
  unmarked _ _ ha := .inl ha

theorem trans {bits'' : Bits} {X'' : Nat → Prop}
    (h : Visit k currMark bits₀ V bits X bits' X')
    (h' : Visit k currMark bits₀ V bits' X' bits'' X'') :
    Visit k currMark bits₀ V bits X bits'' X'' where
  progress := h'.progress
  grows a ha := h'.grows a (h.grows a ha)
  marks a hV ha := h'.marks a hV (h.marks a hV ha)
  marked a hV ha := by
    rcases h'.marked a hV ha with ha | ha
    · exact (h.marked a hV ha).imp_right (h'.grows a)
    · exact .inr ha
  unmarked a hV ha := by
    rcases h'.unmarked a hV ha with ha | ha
    · exact h.unmarked a hV ha
    · exact .inr fun hmark => ha (h.marks a hV hmark)

end Visit

namespace Bits

theorem setMark_bit_of_ne {a b : Nat} {mark : Bool} (h : b ≠ a) :
    (bits.setMark a mark).bit b = bits.bit b := store_bit_of_ne h

theorem setMark_mark {a : Nat} {mark : Bool} :
    (bits.setMark a mark).mark a = mark := by
  rw [Bits.mark, setMark, store_bit]

theorem setMark_number {a b : Nat} {mark : Bool} :
    (bits.setMark a mark).number b = bits.number b := by
  by_cases h : b = a
  · rw [h, number, setMark, store_bit]
    rfl
  · exact number_congr (setMark_bit_of_ne h)

theorem setMark_next {a b : Nat} {mark : Bool} :
    (bits.setMark a mark).next b = bits.next b := by
  by_cases h : b = a
  · rw [h, next, setMark, store_bit]
    rfl
  · exact next_congr (setMark_bit_of_ne h)

end Bits

/-- A node that is not done yet may be marked. -/
theorem Progress.setMark (h : Progress k currMark bits₀ V bits X) (hbit : ¬X bit) :
    Progress k currMark bits₀ V (bits.setMark bit currMark) X := by
  have hkeep : ∀ a, X a → (bits.setMark bit currMark).bit a = bits.bit a := by
    intro a ha
    exact Bits.setMark_bit_of_ne fun heq => hbit (heq ▸ ha)
  exact {
    done := h.done.frame hkeep (Nat.le_refl _)
    size := h.size
    similar := fun a t hV hX ht => by
      obtain ⟨u, hu, hsimilar⟩ := h.similar a t hV hX ht
      exact ⟨u, h.done.unfolds hkeep hX hu, hsimilar⟩
    keptNumber := fun a hV hX => Bits.setMark_number.trans (h.keptNumber a hV hX)
    keptNext := fun a hV hX => Bits.setMark_next.trans (h.keptNext a hV hX) }

/-- A step of `fix_edge` after which both edges are in order. -/
theorem Progress.finish {T T' ch : Bool → DecisionTree Number} {n' : Number}
    (hbounded : ∀ a, V a → a < bits₀.size)
    (h : Progress k currMark bits₀ V bits X)
    (ht : bits₀.Unfolds bit (.node n ch))
    (hstep : Step k currMark bits X bit n T bits' X' n' T')
    (hgood : ∀ j, EdgeGood k n' (T' j)) (hX : ¬X bit)
    (hsimilar : ∀ j, Similar k (ch j) (T j)) :
    Progress k currMark bits₀ V bits' (fun a => X' a ∨ a = bit) where
  done := hstep.pending.done_insert hgood
  size := Nat.le_trans h.size hstep.size
  similar a t hV ha hta := by
    rcases eq_or_ne a bit with rfl | hne
    · refine ⟨.node n' T', hstep.pending.unfolds, ?_, ?_⟩
      · intro answer
        rw [hta.unique ht, hstep.decide answer]
        exact (hsimilar _).decide answer
      · rw [hta.unique ht]
        exact hstep.upper
    · have hXa : X a := by
        rcases hstep.fresh a (ha.resolve_right hne) with hXa | hlarge
        · exact hXa
        · have hsmall := hbounded a hV
          have hsize := h.size
          omega
      obtain ⟨u, hu, hboth⟩ := h.similar a t hV hXa hta
      refine ⟨u, h.done.unfolds (fun b hb => ?_) hXa hu, hboth⟩
      exact hstep.keeps b (h.done.bounded b hb) fun heq => hX (heq ▸ hb)
  keptNumber a hV ha := by
    rw [← h.keptNumber a hV fun hXa => ha (.inl (hstep.grows a hXa))]
    exact Bits.number_congr (hstep.keeps a
      (Nat.lt_of_lt_of_le (hbounded a hV) h.size) fun heq => ha (.inr heq))
  keptNext a hV ha := by
    rw [← h.keptNext a hV fun hXa => ha (.inl (hstep.grows a hXa))]
    exact Bits.next_congr (hstep.keeps a
      (Nat.lt_of_lt_of_le (hbounded a hV) h.size) fun heq => ha (.inr heq))

/-- The node itself is done after everything below it. -/
theorem Visit.insert {bits'' : Bits} {X'' : Nat → Prop}
    (h : Visit k currMark bits₀ V (bits.setMark bit currMark) X bits' X')
    (hmark : bits.mark bit ≠ currMark)
    (hprogress : Progress k currMark bits₀ V bits'' X'')
    (hgrows : ∀ a, X' a → X'' a) (hbit : X'' bit)
    (hkeeps : ∀ a, V a → a ≠ bit → bits''.mark a = bits'.mark a)
    (hfresh : ∀ a, V a → X'' a → X' a ∨ a = bit) :
    Visit k currMark bits₀ V bits X bits'' X'' := by
  have hother : ∀ a, a ≠ bit →
      (bits.setMark bit currMark).mark a = bits.mark a :=
    fun a hne => Bits.mark_congr (Bits.setMark_bit_of_ne hne)
  refine {
    progress := hprogress
    grows := fun a ha => hgrows a (h.grows a ha)
    marks := fun a hV ha => ?_
    marked := fun a hV ha => ?_
    unmarked := fun a hV ha => ?_ }
  · have hne : a ≠ bit := fun heq => hmark (heq ▸ ha)
    rw [hkeeps a hV hne]
    exact h.marks a hV ((hother a hne).trans ha)
  · rcases eq_or_ne a bit with rfl | hne
    · exact .inr hbit
    · rw [hkeeps a hV hne] at ha
      rw [← hother a hne]
      exact (h.marked a hV ha).imp_right (hgrows a)
  · rcases eq_or_ne a bit with rfl | hne
    · exact .inr hmark
    · rw [← hother a hne]
      exact h.unmarked a hV ((hfresh a hV ha).resolve_right hne)

theorem quickDag_marked (hmark : bits.mark bit = currMark) (border sorted : Number) :
    Runs (fun fuel => quickDag currMark border sorted fuel bits bit) bits :=
  .of_succ fun fuel => by rw [quickDag, if_pos hmark]

theorem quickDag_leaf (hmark : bits.mark bit ≠ currMark)
    (hnext : ∀ edge, bits.next bit edge = none) (border sorted : Number) :
    Runs (fun fuel => quickDag currMark border sorted fuel bits bit)
      (bits.setMark bit currMark) := by
  have hnext' : ∀ edge, (bits.setMark bit currMark).next bit edge = none := by
    intro edge
    rw [Bits.setMark_next]
    exact hnext edge
  refine .of_succ fun fuel => ?_
  simp only [quickDag, hmark, hnext', Except.ok_bind, fixEdges, if_false,
    Option.isSome_none, Bool.false_eq_true]

theorem quickDag_node {border sorted : Number} {fuel : Nat} {bits₂ bits₃ : Bits}
    {b : Bool → Nat} (hmark : bits.mark bit ≠ currMark)
    (hnext : ∀ edge, bits.next bit edge = some (b edge))
    (hfalse : quickDag currMark border sorted fuel (bits.setMark bit currMark)
      (b false) = .ok bits₂)
    (hnext₂ : bits₂.next bit true = some (b true))
    (htrue : quickDag currMark border sorted fuel bits₂ (b true) = .ok bits₃) :
    quickDag currMark border sorted (fuel + 1) bits bit =
      fixEdges (fun bits edge => (bits.next bit edge).isSome)
        (fun bits edge => fixEdge border sorted fuel bits bit edge) bits₃ := by
  have hnext' : (bits.setMark bit currMark).next bit false = some (b false) := by
    rw [Bits.setMark_next]
    exact hnext false
  simp only [quickDag, hmark, hnext', hfalse, hnext₂, htrue, Except.ok_bind,
    if_false]

/-- `quick_dag` is done with a node and all nodes below when it returns. Those
that are marked but not done are above the node, as the tree says that there
was when the iteration began. -/
theorem quickDag_spec (hk : k < 32) (hlive : Live (k + 1) bits₀ V)
    (ht : bits₀.Unfolds bit t) (hV : V bit)
    (h : Progress k currMark bits₀ V bits X)
    (habove : ∀ a u, V a → bits.mark a = currMark → bits₀.Unfolds a u →
      X a ∨ t.size < u.size) :
    ∃ bits' X',
      Runs (fun fuel => quickDag currMark (border k) (sorted k) fuel bits bit)
        bits' ∧
      Visit k currMark bits₀ V bits X bits' X' ∧ X' bit := by
  induction ht generalizing bits X with
  | @leaf bit hnone =>
      by_cases hmark : bits.mark bit = currMark
      · have hX := (habove bit _ hV hmark (.leaf hnone)).resolve_right
          (Nat.lt_irrefl _)
        exact ⟨bits, X, quickDag_marked hmark _ _, .refl h, hX⟩
      have hX : ¬X bit := fun hX => hmark (h.done.marked bit hX)
      have hnext : ∀ edge, bits.next bit edge = none := by
        intro edge
        rw [h.keptNext bit hV hX]
        exact hnone edge
      have hset := h.setMark hX
      obtain ⟨u, hu, hordered⟩ := hlive.ordered bit hV
      rw [hu.unique (.leaf hnone)] at hordered
      have hunfolds : (bits.setMark bit currMark).Unfolds bit
          (.leaf (bits₀.number bit)) := by
        rw [← hset.keptNumber bit hV hX]
        refine .leaf fun edge => ?_
        rw [Bits.setMark_next]
        exact hnext edge
      have hdone := hset.done.insert
        (Nat.lt_of_lt_of_le (hlive.bounded bit hV) hset.size) Bits.setMark_mark
        (fun edge b hb => by
          rw [Bits.setMark_next, hnext edge] at hb
          cases hb)
        hunfolds hordered
      refine ⟨_, _, quickDag_leaf hmark hnext _ _,
        (Visit.refl hset).insert hmark ?_ (fun _ => .inl) (.inr rfl)
          (fun _ _ _ => rfl) (fun _ _ ha => ha), .inr rfl⟩
      refine {
        done := hdone
        size := hset.size
        similar := fun a t hV ha ht => ?_
        keptNumber := fun a hV ha => hset.keptNumber a hV (mt .inl ha)
        keptNext := fun a hV ha => hset.keptNext a hV (mt .inl ha) }
      rcases ha with ha | rfl
      · exact hset.similar a t hV ha ht
      · rw [ht.unique (.leaf hnone)]
        exact ⟨_, hunfolds, fun _ => rfl, rfl⟩
  | @node bit b ch hsome hchild ih =>
      by_cases hmark : bits.mark bit = currMark
      · have hX := (habove bit _ hV hmark (.node hsome hchild)).resolve_right
          (Nat.lt_irrefl _)
        exact ⟨bits, X, quickDag_marked hmark _ _, .refl h, hX⟩
      have hX : ¬X bit := fun hX => hmark (h.done.marked bit hX)
      have hset := h.setMark hX
      have hVb : ∀ edge, V (b edge) :=
        fun edge => hlive.closed bit edge (b edge) hV (hsome edge)
      have habove₁ : ∀ edge a u, V a →
          (bits.setMark bit currMark).mark a = currMark → bits₀.Unfolds a u →
          X a ∨ (ch edge).size < u.size := by
        intro edge a u hVa hmarked hu
        have hlt := size_child (bits₀.number bit) ch edge
        rcases eq_or_ne a bit with rfl | hne
        · rw [hu.unique (.node hsome hchild)]
          exact .inr hlt
        · rw [Bits.mark_congr (Bits.setMark_bit_of_ne hne)] at hmarked
          exact (habove a u hVa hmarked hu).imp_right (Nat.lt_trans hlt)
      obtain ⟨bits₂, X₂, ⟨m₂, hruns₂⟩, hvisit₂, hX₂⟩ :=
        ih false (hVb false) hset (habove₁ false)
      have habove₂ : ∀ a u, V a → bits₂.mark a = currMark →
          bits₀.Unfolds a u → X₂ a ∨ (ch true).size < u.size := by
        intro a u hVa hmarked hu
        rcases hvisit₂.marked a hVa hmarked with hold | hnew
        · exact (habove₁ true a u hVa hold hu).imp_left (hvisit₂.grows a)
        · exact .inl hnew
      obtain ⟨bits₃, X₃, ⟨m₃, hruns₃⟩, hvisit₃, hX₃⟩ :=
        ih true (hVb true) hvisit₂.progress habove₂
      have hvisit := hvisit₂.trans hvisit₃
      have hout₂ : ¬X₂ bit := fun hX₂ =>
        (hvisit₂.unmarked bit hV hX₂).elim hX (fun hne => hne Bits.setMark_mark)
      have hout₃ : ¬X₃ bit := fun hX₃ =>
        (hvisit.unmarked bit hV hX₃).elim hX (fun hne => hne Bits.setMark_mark)
      have hprogress := hvisit.progress
      have hreach : ∀ edge, X₃ (b edge) :=
        Bool.forall_bool.mpr ⟨hvisit₃.grows _ hX₂, hX₃⟩
      have htrees : ∀ edge, ∃ u, bits₃.Unfolds (b edge) u ∧
          Similar k (ch edge) u := fun edge =>
        hprogress.similar (b edge) (ch edge) (hVb edge) (hreach edge) (hchild edge)
      choose T hT hsimilar using htrees
      obtain ⟨u, hu, hordered⟩ := hlive.ordered bit hV
      rw [hu.unique (.node hsome hchild)] at hordered
      have hpending : Pending k currMark bits₃ X₃ bit (bits₀.number bit) T := {
        done := hprogress.done
        bound := Nat.lt_of_lt_of_le (hlive.bounded bit hV) hprogress.size
        out := hout₃
        marked := hvisit.marks bit hV Bits.setMark_mark
        number := hprogress.keptNumber bit hV hout₃
        test := hordered.1.1
        child := fun edge => by
          rw [hprogress.keptNext bit hV hout₃]
          exact ⟨b edge, hsome edge, hreach edge, hT edge⟩
        upper := fun edge => by
          rw [(hsimilar edge).upper]
          exact hordered.1.2 edge }
      obtain ⟨bits₄, X₄, n', T', ⟨m₄, hruns₄⟩, hstep, hgood⟩ :=
        fixEdges_spec hk (fixSpec hk currMark _) hpending (Nat.lt_succ_self _)
          (fun bits edge => (bits.next bit edge).isSome)
          fun bits' X' n' T' j hstep hnone => by
            obtain ⟨c, hc, -⟩ := hstep.pending.child j
            rw [hc] at hnone
            cases hnone
      refine ⟨bits₄, fun a => X₄ a ∨ a = bit, ?_, ?_, .inr rfl⟩
      · refine Runs.step (y := fun fuel =>
          quickDag currMark (border k) (sorted k) (fuel + 1) bits bit)
          ⟨max (max m₂ m₃) m₄, fun fuel hfuel => ?_⟩ fun _ => rfl
        have hnext : ∀ edge, bits.next bit edge = some (b edge) := by
          intro edge
          rw [h.keptNext bit hV hX]
          exact hsome edge
        have hnext₂ : bits₂.next bit true = some (b true) := by
          rw [hvisit₂.progress.keptNext bit hV hout₂]
          exact hsome true
        exact (quickDag_node hmark hnext (hruns₂ fuel (by omega)) hnext₂
          (hruns₃ fuel (by omega))).trans (hruns₄ fuel (by omega))
      · have hsmall : ∀ a, V a → a < bits₃.size := fun a hVa =>
          Nat.lt_of_lt_of_le (hlive.bounded a hVa) hprogress.size
        refine hvisit.insert hmark
          (hprogress.finish hlive.bounded (.node hsome hchild) hstep hgood hout₃
            hsimilar)
          (fun a ha => .inl (hstep.grows a ha)) (.inr rfl)
          (fun a hVa hne => Bits.mark_congr (hstep.keeps a (hsmall a hVa) hne))
          (fun a hVa ha => ?_)
        rcases ha with ha | rfl
        · exact .inl ((hstep.fresh a ha).resolve_right
            (Nat.not_le.mpr (hsmall a hVa)))
        · exact .inr rfl

/-! Printing. -/

theorem and_tagMask_eq_iff {n tag : Number} (htag : tag &&& tagMask = tag) :
    n &&& tagMask = tag ↔ upper 28 n = upper 28 tag := by
  have hmask : tagMask = sorted 27 := by decide
  have hxor : (n ^^^ tag) &&& tagMask = (n &&& tagMask) ^^^ tag := by
    conv_rhs => rw [← htag]
    apply BitVec.eq_of_getLsbD_eq
    intro i hi
    simp only [BitVec.getLsbD_and, BitVec.getLsbD_xor, Bool.and_xor_distrib_right]
  rw [← samePartition_iff, samePartition, beq_iff_eq, ← hmask, hxor,
    BitVec.ofNat_eq_ofNat, BitVec.xor_eq_zero_iff]

theorem printable_of_isTest (h : IsTest n) : printable n = true := by
  have hzero : n &&& tagMask = 0 := (and_tagMask_eq_iff (by decide)).mpr h
  simp [printable, hzero]

theorem printable_of_isDecision (h : IsDecision n) : printable n = true := by
  have htag : ∀ tag : Number, tag &&& tagMask = tag → upper 28 n = upper 28 tag →
      (n &&& tagMask == tag) = true :=
    fun tag htag heq => beq_iff_eq.mpr ((and_tagMask_eq_iff htag).mpr heq)
  obtain ⟨hlow, hhigh⟩ := h
  have hcases : upper 28 n = 8 ∨ upper 28 n = 9 ∨ upper 28 n = 10 ∨
      upper 28 n = 11 := by omega
  simp only [printable, Bool.or_eq_true]
  rcases hcases with h | h | h | h
  · exact .inl (.inl (.inl (.inr (htag dropTag (by decide) h))))
  · exact .inl (.inl (.inr (htag classTag (by decide) h)))
  · exact .inl (.inr (htag reclassifyTag (by decide) h))
  · exact .inr (htag continueTag (by decide) h)

theorem dag2d_runs (ht : bits.Unfolds bit t)
    (hprint : t.All (fun n _ => printable n = true) (fun n => printable n = true)) :
    Runs (fun fuel => dag2d fuel bits (some bit)) () := by
  have hnone : ∀ fuel, dag2d fuel bits none = .ok () := by
    intro fuel
    cases fuel <;> rfl
  induction ht with
  | @leaf bit hnext =>
      have hroot : printable (bits.number bit) = true := hprint
      refine .of_succ fun fuel => ?_
      rw [dag2d, if_pos hroot, hnext, hnext, hnone, Except.ok_bind]
  | node hnext hchild ih =>
      refine .step ((ih true (hprint.2 true)).bind (f := fun fuel _ =>
        dag2d fuel bits (some _)) (ih false (hprint.2 false))) fun fuel => ?_
      rw [dag2d, if_pos hprint.1, hnext, hnext]

/-! All iterations. -/

theorem Ordered.printable (h : Ordered k t) :
    t.All (fun n _ => printable n = true) (fun n => printable n = true) :=
  h.mono (fun _ _ htest => printable_of_isTest htest.1)
    fun _ hdecision => printable_of_isDecision hdecision

/-- One iteration puts one more bit in order. -/
theorem iteration_spec (hk : k < 32) {dag : Nat} (hlive : Live (k + 1) bits V)
    (hdag : V dag) (hmark : ∀ a, V a → bits.mark a ≠ currMark)
    (ht : bits.Unfolds dag t) :
    ∃ bits' V' u,
      Runs (fun fuel => quickDag currMark (border k) (sorted k) fuel bits dag)
        bits' ∧
      Live k bits' V' ∧ V' dag ∧ (∀ a, V' a → bits'.mark a = currMark) ∧
      bits'.Unfolds dag u ∧ ∀ answer, u.decide answer = t.decide answer := by
  have hstart : Progress k currMark bits V bits (fun _ => False) := {
    done := {
      bounded := fun _ ha => ha.elim
      closed := fun _ _ _ ha _ => ha
      marked := fun _ ha => ha.elim
      good := fun _ ha => ha.elim }
    size := Nat.le_refl _
    similar := fun _ _ _ ha _ => ha.elim
    keptNumber := fun _ _ _ => rfl
    keptNext := fun _ _ _ => rfl }
  obtain ⟨bits', X, hruns, hvisit, hX⟩ := quickDag_spec hk hlive ht hdag hstart
    fun a u hV hmarked _ => absurd hmarked (hmark a hV)
  have hprogress := hvisit.progress
  obtain ⟨u, hu, hsimilar⟩ := hprogress.similar dag t hdag hX ht
  exact ⟨bits', X, u, hruns, {
    bounded := hprogress.done.bounded
    closed := hprogress.done.closed
    ordered := fun a ha => by
      obtain ⟨u, hu, hgood⟩ := hprogress.done.good a ha
      exact ⟨u, hu, hgood.ordered⟩ }, hX, hprogress.done.marked, hu,
    hsimilar.decide⟩

theorem sortIterations_spec {i dag : Nat} (hi : i ≤ 32) (hlive : Live i bits V)
    (hdag : V dag) (hmark : ∀ a, V a → bits.mark a ≠ currMark)
    (ht : bits.Unfolds dag t) :
    ∃ bits' V' u mark,
      Runs (fun fuel => sortIterations fuel i currMark bits dag) (bits', mark) ∧
      Live 0 bits' V' ∧ V' dag ∧ bits'.Unfolds dag u ∧
      ∀ answer, u.decide answer = t.decide answer := by
  induction i generalizing currMark bits V t with
  | zero =>
      exact ⟨bits, V, t, currMark, .of_eq fun _ => rfl, hlive, hdag, ht,
        fun _ => rfl⟩
  | succ i ih =>
      obtain ⟨bits₁, V₁, u₁, hruns₁, hlive₁, hdag₁, hmark₁, hu₁, hdecide₁⟩ :=
        iteration_spec hi hlive hdag hmark ht
      have hflip : ∀ a, V₁ a → bits₁.mark a ≠ !currMark := by
        intro a ha
        rw [hmark₁ a ha]
        exact Bool.self_ne_not currMark
      obtain ⟨bits₂, V₂, u₂, mark₂, hruns₂, hlive₂, hdag₂, hu₂, hdecide₂⟩ :=
        ih (Nat.le_of_succ_le hi) hlive₁ hdag₁ hflip hu₁
      obtain ⟨t', ht', hordered⟩ := hlive.ordered dag hdag
      have hprints := dag2d_runs ht (ht.unique ht' ▸ hordered.printable)
      refine ⟨bits₂, V₂, u₂, mark₂, ?_, hlive₂, hdag₂, hu₂,
        fun answer => (hdecide₂ answer).trans (hdecide₁ answer)⟩
      exact hprints.bind (f := fun fuel _ =>
        quickDag currMark (border i) (sorted i) fuel bits dag >>= fun bits =>
          sortIterations fuel i (!currMark) bits dag)
        (hruns₁.bind (f := fun fuel bits =>
          sortIterations fuel i (!currMark) bits dag) hruns₂)

/-! Verification. -/

/-- No edge leads to a smaller number. -/
def InOrder : DecisionTree Number → Prop :=
  All (fun n child => ∀ edge, n ≤ (child edge).root) fun _ => True

theorem Ordered.inOrder (h : Ordered 0 t) : InOrder t := by
  refine h.mono (fun n child htest edge => ?_) fun _ _ => trivial
  have hle := htest.2 edge
  rw [upper_zero, upper_zero] at hle
  exact hle

/-- The index is all that changes. -/
structure SameDiagram (bits bits' : Bits) : Prop where
  number : bits'.number = bits.number
  next : bits'.next = bits.next

theorem SameDiagram.trans {bits'' : Bits} (h : SameDiagram bits bits')
    (h' : SameDiagram bits' bits'') : SameDiagram bits bits'' :=
  ⟨h'.number.trans h.number, h'.next.trans h.next⟩

theorem SameDiagram.setIndex (bits : Bits) (bit : Nat) (index : Int) :
    SameDiagram bits (bits.setIndex bit index) where
  number := by
    funext a
    rcases eq_or_ne a bit with rfl | hne
    · rw [Bits.number, Bits.setIndex, Bits.store_bit]
      rfl
    · exact Bits.number_congr (Bits.store_bit_of_ne hne)
  next := by
    funext a
    rcases eq_or_ne a bit with rfl | hne
    · rw [Bits.next, Bits.setIndex, Bits.store_bit]
      rfl
    · exact Bits.next_congr (Bits.store_bit_of_ne hne)

theorem doVerifyDag_indexed {index : Int} (h : bits.index bit ≠ -1) :
    Runs (fun fuel => doVerifyDag fuel (bits, index) (some bit)) (bits, index) :=
  .of_succ fun fuel => by rw [doVerifyDag, if_pos h]

theorem doVerifyDag_succ {fuel : Nat} {index : Int} {state result : Bits × Int}
    (hindex : bits.index bit = -1) (hedge : ∀ edge, edgeInOrder bits bit edge = true)
    (hfalse : doVerifyDag fuel (bits, index) (bits.next bit false) = .ok state)
    (htrue : doVerifyDag fuel state (bits.next bit true) = .ok result) :
    doVerifyDag (fuel + 1) (bits, index) (some bit) =
      .ok (result.1.setIndex bit result.2, result.2 + 1) := by
  simp only [doVerifyDag, hindex, hedge, hfalse, htrue, Except.ok_bind, ne_eq,
    not_true, if_false, Bool.not_true, Bool.false_eq_true]

/-- Nodes that have an index already are passed over, in all others both
assertions hold. -/
theorem doVerifyDag_runs (ht : bits.Unfolds bit t) (horder : InOrder t)
    (hsame : SameDiagram bits bits') (index : Int) :
    ∃ bits'' index'',
      Runs (fun fuel => doVerifyDag fuel (bits', index) (some bit))
        (bits'', index'') ∧ SameDiagram bits bits'' := by
  have hnone : ∀ fuel state, doVerifyDag fuel state none = .ok state := by
    intro fuel state
    cases fuel <;> rfl
  induction ht generalizing bits' index with
  | @leaf bit hnext =>
      by_cases hindex : bits'.index bit ≠ -1
      · exact ⟨bits', index, doVerifyDag_indexed hindex, hsame⟩
      have hend : ∀ edge, bits'.next bit edge = none := by
        intro edge
        rw [hsame.next]
        exact hnext edge
      have hedge : ∀ edge, edgeInOrder bits' bit edge = true := by
        intro edge
        simp only [edgeInOrder, hend edge]
      refine ⟨_, _, .of_succ fun fuel => doVerifyDag_succ (not_not.mp hindex) hedge
        (hend false ▸ hnone fuel _) (hend true ▸ hnone fuel _), hsame.trans ?_⟩
      exact .setIndex bits' bit index
  | @node bit b child hnext hchild ih =>
      by_cases hindex : bits'.index bit ≠ -1
      · exact ⟨bits', index, doVerifyDag_indexed hindex, hsame⟩
      have hsome : ∀ edge, bits'.next bit edge = some (b edge) := by
        intro edge
        rw [hsame.next]
        exact hnext edge
      have hedge : ∀ edge, edgeInOrder bits' bit edge = true := by
        intro edge
        simp only [edgeInOrder, hsome edge, hsame.number, decide_eq_true_eq]
        rw [← (hchild edge).root_eq]
        exact horder.1 edge
      obtain ⟨bits₁, index₁, hruns₁, hsame₁⟩ :=
        ih false (horder.2 false) hsame index
      obtain ⟨bits₂, index₂, hruns₂, hsame₂⟩ :=
        ih true (horder.2 true) hsame₁ index₁
      refine ⟨bits₂.setIndex bit index₂, index₂ + 1, ?_,
        hsame₂.trans (.setIndex bits₂ bit index₂)⟩
      obtain ⟨m, hm⟩ := hruns₁.and hruns₂
      refine Runs.step (y := fun fuel =>
        doVerifyDag (fuel + 1) (bits', index) (some bit))
        ⟨m, fun fuel hfuel => ?_⟩ fun _ => rfl
      obtain ⟨hfalse, htrue⟩ := hm fuel hfuel
      exact doVerifyDag_succ (not_not.mp hindex) hedge
        (hsome false ▸ hfalse) (hsome true ▸ htrue)

/-! The whole of it. -/

/-- A heap in which no edge leads out of it and no node has been visited. -/
structure Unvisited (currMark : Bool) (bits : Bits) : Prop where
  bounded : ∀ a edge b, a < bits.size → bits.next a edge = some b → b < bits.size
  unmarked : ∀ a, a < bits.size → bits.mark a ≠ currMark

/-- Data tests above decisions. -/
def Kinds : DecisionTree Number → Prop := All (fun n _ => IsTest n) IsDecision

/-- Numbers do not exceed 32 bits, thus the first iteration may find any order. -/
theorem Kinds.ordered (h : Kinds t) : Ordered 32 t :=
  h.mono (fun n child htest => ⟨htest, fun edge => by
    rw [upper_thirty_two, upper_thirty_two]⟩) fun _ hdecision => hdecision

theorem Unvisited.live (h : Unvisited currMark bits) :
    Live 32 bits fun a => a < bits.size ∧ ∃ t, bits.Unfolds a t ∧ Kinds t where
  bounded a ha := ha.1
  closed a edge b ha hb := by
    obtain ⟨hlt, t, ht, hkinds⟩ := ha
    obtain ⟨child, rfl, hchild⟩ := ht.child hb
    exact ⟨h.bounded a edge b hlt hb, child edge, hchild, hkinds.2 edge⟩
  ordered a ha := by
    obtain ⟨-, t, ht, hkinds⟩ := ha
    exact ⟨t, ht, hkinds.ordered⟩

theorem sortDag_spec (h : Unvisited currMark bits) {dag : Nat}
    (hdag : dag < bits.size) (ht : bits.Unfolds dag t) (hkinds : Kinds t) :
    ∃ bits' mark u,
      Runs (fun fuel => sortDag fuel currMark bits dag) (bits', mark) ∧
      bits'.Unfolds dag u ∧ (∀ answer, u.decide answer = t.decide answer) ∧
      Ordered 0 u := by
  obtain ⟨bits', V, u, mark, hruns, hlive, hV, hu, hdecide⟩ :=
    sortIterations_spec (Nat.le_refl 32) h.live ⟨hdag, t, ht, hkinds⟩
      (fun a ha => h.unmarked a ha.1) ht
  obtain ⟨u', hu', hordered⟩ := hlive.ordered dag hV
  rw [← hu.unique hu'] at hordered
  exact ⟨bits', mark, u, hruns, hu, hdecide, hordered⟩

/-- Whatever is shared in a diagram of data tests and decisions, `sort_dag`
comes to an end, the decisions stay the same for all data, no edge leads to a
smaller number, and `verify_dag` agrees. -/
theorem sortDag_sorts (h : Unvisited currMark bits) {dag : Nat}
    (hdag : dag < bits.size) (ht : bits.Unfolds dag t) (hkinds : Kinds t) :
    ∃ bits' mark u,
      Runs (fun fuel => sortDag fuel currMark bits dag) (bits', mark) ∧
      bits'.Unfolds dag u ∧ (∀ answer, u.decide answer = t.decide answer) ∧
      InOrder u ∧
      ∃ verified, Runs (fun fuel => doVerifyDag fuel (bits', 0) (some dag))
        verified := by
  obtain ⟨bits', mark, u, hruns, hu, hdecide, hordered⟩ :=
    sortDag_spec h hdag ht hkinds
  obtain ⟨bits'', index, hverify, -⟩ :=
    doVerifyDag_runs hu hordered.inOrder ⟨rfl, rfl⟩ 0
  exact ⟨bits', mark, u, hruns, hu, hdecide, hordered.inOrder, _, hverify⟩

/-- Bit 5 is tested before bit 3; the decisions are shared. -/
def outOfOrder : Bits where
  size := 4
  bit
    | 0 => ⟨dropTag, false, -1, fun _ => none⟩
    | 1 => ⟨continueTag, false, -1, fun _ => none⟩
    | 2 => ⟨3#32, false, -1, fun edge => some edge.toNat⟩
    | _ => ⟨5#32, false, -1, fun edge => some (if edge then 2 else 0)⟩

theorem sortDag_sorts_outOfOrder :
    ∃ bits' mark u,
      Runs (fun fuel => sortDag fuel true outOfOrder 3) (bits', mark) ∧
      bits'.Unfolds 3 u ∧
      (∀ answer, u.decide answer =
        (node 5#32 fun edge => if edge then
          node 3#32 fun edge => leaf (if edge then continueTag else dropTag)
          else leaf dropTag).decide answer) ∧
      InOrder u ∧
      ∃ verified, Runs (fun fuel => doVerifyDag fuel (bits', 0) (some 3))
        verified := by
  have hdrop : outOfOrder.Unfolds 0 (.leaf dropTag) := .leaf fun _ => rfl
  have hcontinue : outOfOrder.Unfolds 1 (.leaf continueTag) := .leaf fun _ => rfl
  have hthree : outOfOrder.Unfolds 2
      (node 3#32 fun edge => leaf (if edge then continueTag else dropTag)) :=
    .node (b := Bool.toNat) (fun _ => rfl)
      (Bool.forall_bool.mpr ⟨hdrop, hcontinue⟩)
  refine sortDag_sorts ⟨?_, ?_⟩ (by decide)
    (.node (b := fun edge => if edge then 2 else 0) (fun _ => rfl)
      (Bool.forall_bool.mpr ⟨hdrop, hthree⟩)) ?_
  · intro a edge b ha hb
    obtain rfl | rfl | rfl | rfl : a = 0 ∨ a = 1 ∨ a = 2 ∨ a = 3 := by
      change a < 4 at ha
      omega
    · cases hb
    · cases hb
    · cases hb
      cases edge <;> decide
    · cases hb
      cases edge <;> decide
  · intro a _
    obtain rfl | rfl | rfl | h : a = 0 ∨ a = 1 ∨ a = 2 ∨ 2 < a := by omega
    · decide
    · decide
    · decide
    · obtain ⟨a, rfl⟩ := Nat.exists_eq_add_of_lt h
      rw [show 2 + a + 1 = a + 3 by omega]
      exact Bool.false_ne_true
  · have hdropKind : IsDecision dropTag := ⟨by decide, by decide⟩
    have hcontinueKind : IsDecision continueTag := ⟨by decide, by decide⟩
    exact ⟨rfl, Bool.forall_bool.mpr
      ⟨hdropKind, rfl, Bool.forall_bool.mpr ⟨hdropKind, hcontinueKind⟩⟩⟩

end Tcng.FastBit
