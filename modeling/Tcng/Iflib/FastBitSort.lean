import Tcng.Iflib.FastBit
import Tcng.Lib.BitOrder
import Tcng.Lib.Fuel

/-! `sort_dag` is a radix sort: the iteration for bit `k` puts the numbers in
order as far as the bits from `k` on tell them apart, and swaps levels such that
all decisions stay the same. -/

namespace Tcng.FastBit

/-- What the bits of a number from `k` on amount to. -/
def upper (k : Nat) (n : Number) : Nat := n.toNat / 2 ^ k

/-- `1 << i` -/
def border (i : Nat) : Number := 1#32 <<< i

/-- `0xfffffffe << i` -/
def sorted (i : Nat) : Number := 0xfffffffe#32 <<< i

/-- The number of a data test has no tag. -/
def IsTest (n : Number) : Prop := upper 28 n = 0

/-- The tags of drop, class, reclassify and continue. -/
def IsDecision (n : Number) : Prop := 8 ≤ upper 28 n ∧ upper 28 n < 12

section

variable {k : Nat} {a b : Number}

theorem upper_succ (k : Nat) (n : Number) :
    upper k n = 2 * upper (k + 1) n + (n.getLsbD k).toNat :=
  BitOrder.div_two_pow n.toNat k

theorem upper_eq_iff :
    upper k a = upper k b ↔ ∀ i, k ≤ i → a.getLsbD i = b.getLsbD i :=
  BitOrder.div_two_pow_eq_iff

theorem upper_eq_of_le {m : Nat} (h : upper k a = upper k b) (hm : k ≤ m) :
    upper m a = upper m b := by
  rw [upper_eq_iff] at h ⊢
  exact fun i hi => h i (Nat.le_trans hm hi)

theorem getLsbD_border {i : Nat} (hi : i < 32) (j : Nat) :
    (border i).getLsbD j = decide (i = j) := by
  rw [border, BitVec.getLsbD_shiftLeft, BitVec.getLsbD_one, Bool.eq_iff_iff]
  simp only [Bool.and_eq_true, Bool.not_eq_true', decide_eq_true_eq,
    decide_eq_false_iff_not]
  omega

theorem getLsbD_sorted (i j : Nat) :
    (sorted i).getLsbD j = (decide (i < j) && decide (j < 32)) := by
  have hnot : 0xfffffffe#32 = ~~~1#32 := by decide
  rw [sorted, hnot, BitVec.getLsbD_shiftLeft, BitVec.getLsbD_not,
    BitVec.getLsbD_one, Bool.eq_iff_iff]
  simp only [Bool.and_eq_true, Bool.not_eq_true', Bool.and_eq_false_iff,
    decide_eq_true_eq, decide_eq_false_iff_not]
  omega

theorem and_border_eq_zero_iff (hk : k < 32) :
    a &&& border k = 0 ↔ a.getLsbD k = false := by
  constructor
  · intro h
    have hbit := congrArg (BitVec.getLsbD · k) h
    simpa [getLsbD_border hk] using hbit
  · intro h
    apply BitVec.eq_of_getLsbD_eq
    intro i hi
    rw [BitVec.getLsbD_and, getLsbD_border hk]
    by_cases hik : k = i
    · subst hik
      simp [h]
    · simp [hik]

theorem samePartition_iff :
    samePartition (sorted k) a b = true ↔ upper (k + 1) a = upper (k + 1) b := by
  rw [samePartition, beq_iff_eq, upper_eq_iff]
  constructor
  · intro h i hi
    by_cases hlarge : i < 32
    · have hbit := congrArg (BitVec.getLsbD · i) h
      simp only [BitVec.getLsbD_and, BitVec.getLsbD_xor, getLsbD_sorted,
        Nat.lt_of_succ_le hi, hlarge, decide_true, Bool.and_true,
        BitVec.ofNat_eq_ofNat, BitVec.getLsbD_zero] at hbit
      exact bne_eq_false_iff_eq.mp hbit
    · rw [BitVec.getLsbD_of_ge a i (Nat.le_of_not_lt hlarge),
        BitVec.getLsbD_of_ge b i (Nat.le_of_not_lt hlarge)]
  · intro h
    apply BitVec.eq_of_getLsbD_eq
    intro i hi
    rw [BitVec.getLsbD_and, BitVec.getLsbD_xor, getLsbD_sorted]
    by_cases hki : k < i
    · simp [h i hki]
    · simp [hki]

/-- The lower part comes first. -/
theorem upper_le_of_low (hle : upper (k + 1) a ≤ upper (k + 1) b)
    (hlow : a.getLsbD k = false) : upper k a ≤ upper k b := by
  rw [upper_succ k a, upper_succ k b, hlow, Bool.toNat_false]
  omega

theorem upper_le_of_high (hle : upper (k + 1) a ≤ upper (k + 1) b)
    (hhigh : b.getLsbD k = true) : upper k a ≤ upper k b := by
  rw [upper_succ k a, upper_succ k b, hhigh, Bool.toNat_true]
  have hbit := Bool.toNat_le (a.getLsbD k)
  omega

theorem upper_lt_of_lt (hlt : upper (k + 1) a < upper (k + 1) b) :
    upper k a < upper k b := by
  rw [upper_succ k a, upper_succ k b]
  have hbit := Bool.toNat_le (a.getLsbD k)
  omega

theorem upper_succ_le (hle : upper k a ≤ upper k b) :
    upper (k + 1) a ≤ upper (k + 1) b := by
  rw [upper_succ k a, upper_succ k b] at hle
  have ha := Bool.toNat_le (a.getLsbD k)
  have hb := Bool.toNat_le (b.getLsbD k)
  omega

/-- The numbers that are in the wrong order for bit `k` only. -/
theorem upper_of_not_le (hle : upper (k + 1) a ≤ upper (k + 1) b)
    (hnot : ¬upper k a ≤ upper k b) :
    upper (k + 1) b = upper (k + 1) a ∧ b.getLsbD k = false := by
  rw [upper_succ k a, upper_succ k b] at hnot
  have ha := Bool.toNat_le (a.getLsbD k)
  cases hb : b.getLsbD k with
  | false => exact ⟨by rw [hb, Bool.toNat_false] at hnot; omega, rfl⟩
  | true =>
      rw [hb, Bool.toNat_true] at hnot
      omega

theorem upper_thirty_two (n : Number) : upper 32 n = 0 :=
  Nat.div_eq_of_lt n.isLt

theorem upper_zero (n : Number) : upper 0 n = n.toNat := Nat.div_one _

end

open DecisionTree

/-! What a tree is like before and after an iteration. -/

/-- Tests and decisions, ordered by their bits from `k` on. -/
def Ordered (k : Nat) : DecisionTree Number → Prop :=
  All (fun n child => IsTest n ∧ ∀ edge, upper k n ≤ upper k (child edge).root)
    IsDecision

def EdgeGood (k : Nat) (n : Number) (t : DecisionTree Number) : Prop :=
  upper k n ≤ upper k t.root ∧ n ≠ t.root

/-- Ordered, and no bit is tested twice in a row. -/
def Good (k : Nat) : DecisionTree Number → Prop :=
  All (fun n child => IsTest n ∧ ∀ edge, EdgeGood k n (child edge)) IsDecision

variable {k : Nat} {currMark : Bool} {t u : DecisionTree Number} {n : Number}

theorem Good.ordered (h : Good k t) : Ordered k t :=
  h.mono (fun _ _ htest => ⟨htest.1, fun edge => (htest.2 edge).1⟩)
    fun _ hdecision => hdecision

/-- The next iteration looks at one more bit. -/
theorem Ordered.succ (h : Ordered k t) : Ordered (k + 1) t :=
  h.mono (fun _ _ htest => ⟨htest.1, fun edge => upper_succ_le (htest.2 edge)⟩)
    fun _ hdecision => hdecision

namespace Bits

variable {bits bits' : Bits} {a b : Nat} {content : Bit}

@[simp] theorem store_size : (bits.store a content).size = bits.size := rfl

@[simp] theorem store_bit : (bits.store a content).bit a = content :=
  Function.update_self ..

theorem store_bit_of_ne (h : b ≠ a) : (bits.store a content).bit b = bits.bit b :=
  Function.update_of_ne h ..

@[simp] theorem alloc_size : (bits.alloc content).size = bits.size + 1 := rfl

@[simp] theorem alloc_bit : (bits.alloc content).bit bits.size = content :=
  Function.update_self ..

theorem alloc_bit_of_ne (h : b ≠ bits.size) :
    (bits.alloc content).bit b = bits.bit b := Function.update_of_ne h ..

theorem setNext_bit_of_ne {edge : Bool} {c : Option Nat} (h : b ≠ a) :
    (bits.setNext a edge c).bit b = bits.bit b := store_bit_of_ne h

theorem setNext_number {edge : Bool} {c : Option Nat} :
    (bits.setNext a edge c).number a = bits.number a := by
  rw [number, setNext, store_bit]
  rfl

theorem setNext_mark {edge : Bool} {c : Option Nat} :
    (bits.setNext a edge c).mark a = bits.mark a := by
  rw [mark, setNext, store_bit]
  rfl

theorem setNext_next {edge : Bool} {c : Option Nat} :
    (bits.setNext a edge c).next a =
      Function.update (bits.next a) edge c := by
  rw [next, setNext, store_bit]

theorem follow_eq {edge : Bool} (h : bits.next a edge = some b) :
    bits.follow a edge = .ok b := by
  rw [follow, h]

theorem number_congr (h : bits'.bit a = bits.bit a) :
    bits'.number a = bits.number a := congrArg Bit.number h

theorem mark_congr (h : bits'.bit a = bits.bit a) :
    bits'.mark a = bits.mark a := congrArg Bit.mark h

theorem next_congr (h : bits'.bit a = bits.bit a) :
    bits'.next a = bits.next a := congrArg Bit.next h

end Bits

/-- Nodes the iteration is done with, and everything below them. -/
structure Done (k : Nat) (currMark : Bool) (bits : Bits) (X : Nat → Prop) :
    Prop where
  bounded : ∀ a, X a → a < bits.size
  closed : ∀ a edge b, X a → bits.next a edge = some b → X b
  marked : ∀ a, X a → bits.mark a = currMark
  good : ∀ a, X a → ∃ t, bits.Unfolds a t ∧ Good k t

variable {bits bits' : Bits} {X X' : Nat → Prop} {bit : Nat} {edge : Bool}

namespace Done

theorem unfolds (h : Done k currMark bits X)
    (hkeep : ∀ a, X a → bits'.bit a = bits.bit a) {a : Nat} (ha : X a)
    (ht : bits.Unfolds a t) : bits'.Unfolds a t :=
  ht.frame ha (fun b c edge hb => h.closed b edge c hb)
    (fun b hb => Bits.number_congr (hkeep b hb))
    fun b hb => Bits.next_congr (hkeep b hb)

theorem frame (h : Done k currMark bits X)
    (hkeep : ∀ a, X a → bits'.bit a = bits.bit a)
    (hsize : bits.size ≤ bits'.size) : Done k currMark bits' X where
  bounded a ha := Nat.lt_of_lt_of_le (h.bounded a ha) hsize
  closed a edge b ha hb := by
    rw [Bits.next_congr (hkeep a ha)] at hb
    exact h.closed a edge b ha hb
  marked a ha := by
    rw [Bits.mark_congr (hkeep a ha)]
    exact h.marked a ha
  good a ha := by
    obtain ⟨t, ht, hgood⟩ := h.good a ha
    exact ⟨t, h.unfolds hkeep ha ht, hgood⟩

theorem insert (h : Done k currMark bits X) (hbit : bit < bits.size)
    (hmark : bits.mark bit = currMark)
    (hnext : ∀ edge b, bits.next bit edge = some b → X b)
    (ht : bits.Unfolds bit t) (hgood : Good k t) :
    Done k currMark bits (fun a => X a ∨ a = bit) where
  bounded a ha := by
    rcases ha with ha | rfl
    · exact h.bounded a ha
    · exact hbit
  closed a edge b ha hb := by
    rcases ha with ha | rfl
    · exact .inl (h.closed a edge b ha hb)
    · exact .inl (hnext edge b hb)
  marked a ha := by
    rcases ha with ha | rfl
    · exact h.marked a ha
    · exact hmark
  good a ha := by
    rcases ha with ha | rfl
    · exact h.good a ha
    · exact ⟨t, ht, hgood⟩

/-- A tree of such a node is good, as there is no other. -/
theorem good_of_unfolds (h : Done k currMark bits X) {a : Nat} (ha : X a)
    (ht : bits.Unfolds a t) : Good k t := by
  obtain ⟨u, hu, hgood⟩ := h.good a ha
  exact ht.unique hu ▸ hgood

end Done

/-- A test both edges of which lead to such nodes, where the test may belong
behind them as far as bit `k` is concerned. -/
structure Pending (k : Nat) (currMark : Bool) (bits : Bits) (X : Nat → Prop)
    (bit : Nat) (n : Number) (T : Bool → DecisionTree Number) : Prop where
  done : Done k currMark bits X
  bound : bit < bits.size
  out : ¬X bit
  marked : bits.mark bit = currMark
  number : bits.number bit = n
  test : IsTest n
  child : ∀ edge, ∃ c, bits.next bit edge = some c ∧ X c ∧
    bits.Unfolds c (T edge)
  upper : ∀ edge, upper (k + 1) n ≤ upper (k + 1) (T edge).root

variable {T T' : Bool → DecisionTree Number}

namespace Pending

theorem unfolds (h : Pending k currMark bits X bit n T) :
    bits.Unfolds bit (.node n T) := by
  choose c hnext hX hc using h.child
  rw [← h.number]
  exact .node hnext hc

theorem good_child (h : Pending k currMark bits X bit n T) (edge : Bool) :
    Good k (T edge) := by
  obtain ⟨c, -, hX, hc⟩ := h.child edge
  exact h.done.good_of_unfolds hX hc

/-- When no edge is broken any more, the node is done as well. -/
theorem done_insert (h : Pending k currMark bits X bit n T)
    (hgood : ∀ edge, EdgeGood k n (T edge)) :
    Done k currMark bits (fun a => X a ∨ a = bit) := by
  refine h.done.insert h.bound h.marked (fun edge b hb => ?_) h.unfolds ?_
  · obtain ⟨c, hnext, hX, -⟩ := h.child edge
    cases hnext.symm.trans hb
    exact hX
  · exact ⟨⟨h.test, hgood⟩, h.good_child⟩

end Pending

/-- What a part of `fix_edge` does to a pending node: only the node itself and
new ones change, and the decisions stay the same. -/
structure Step (k : Nat) (currMark : Bool) (bits : Bits) (X : Nat → Prop)
    (bit : Nat) (n : Number) (T : Bool → DecisionTree Number)
    (bits' : Bits) (X' : Nat → Prop) (n' : Number)
    (T' : Bool → DecisionTree Number) : Prop where
  pending : Pending k currMark bits' X' bit n' T'
  grows : ∀ a, X a → X' a
  fresh : ∀ a, X' a → X a ∨ bits.size ≤ a
  size : bits.size ≤ bits'.size
  keeps : ∀ a, a < bits.size → a ≠ bit → bits'.bit a = bits.bit a
  decide : ∀ answer,
    (node n' T').decide answer = (node n T).decide answer
  upper : upper (k + 1) n' = upper (k + 1) n

variable {n' : Number}

namespace Step

theorem refl (h : Pending k currMark bits X bit n T) :
    Step k currMark bits X bit n T bits X n T where
  pending := h
  grows _ ha := ha
  fresh _ ha := .inl ha
  size := Nat.le_refl _
  keeps _ _ _ := rfl
  decide _ := rfl
  upper := rfl

theorem trans {bits'' : Bits} {X'' : Nat → Prop} {n'' : Number}
    {T'' : Bool → DecisionTree Number}
    (h : Step k currMark bits X bit n T bits' X' n' T')
    (h' : Step k currMark bits' X' bit n' T' bits'' X'' n'' T'') :
    Step k currMark bits X bit n T bits'' X'' n'' T'' where
  pending := h'.pending
  grows a ha := h'.grows a (h.grows a ha)
  fresh a ha := by
    rcases h'.fresh a ha with ha | ha
    · exact h.fresh a ha
    · exact .inr (Nat.le_trans h.size ha)
  size := Nat.le_trans h.size h'.size
  keeps a ha hne := by
    rw [h'.keeps a (Nat.lt_of_lt_of_le ha h.size) hne, h.keeps a ha hne]
  decide answer := (h'.decide answer).trans (h.decide answer)
  upper := h'.upper.trans h.upper

end Step

theorem mergeEdge_succ {fuel : Nat} {c : Nat} (hnext : bits.next bit edge = some c) :
    mergeEdge (fuel + 1) bits bit edge =
      if bits.number bit = bits.number c then
        if ((bits.setNext bit edge (bits.next c edge)).next bit edge).isNone then
          .ok (bits.setNext bit edge (bits.next c edge))
        else mergeEdge fuel (bits.setNext bit edge (bits.next c edge)) bit edge
      else .ok bits := by
  rw [mergeEdge, Bits.follow_eq hnext, Except.ok_bind]

theorem isTest_ne_isDecision {a b : Number} (ha : IsTest a) (hb : IsDecision b) :
    a ≠ b := by
  intro heq
  rw [IsTest, heq] at ha
  have hlarge := hb.1
  omega

/-- An edge is moved to what it leads to under the same answer. -/
theorem Pending.skip {ch : Bool → DecisionTree Number} {c d : Nat}
    (h : Pending k currMark bits X bit n T) (hT : T edge = .node n ch)
    (hnext : bits.next bit edge = some c) (hd : bits.next c edge = some d) :
    Step k currMark bits X bit n T (bits.setNext bit edge (some d)) X n
      (Function.update T edge (ch edge)) := by
  obtain ⟨c', hc', hX, hc⟩ := h.child edge
  cases hnext.symm.trans hc'
  have hkeep : ∀ a, X a → (bits.setNext bit edge (some d)).bit a = bits.bit a := by
    intro a ha
    exact Bits.setNext_bit_of_ne fun heq => h.out (heq ▸ ha)
  have hdone := h.done.frame hkeep (Nat.le_refl _)
  obtain ⟨child, hchild, hbelow⟩ := hc.child hd
  rw [hT] at hchild
  injection hchild with hlabel hfun
  subst hfun
  refine {
    pending := {
      done := hdone
      bound := h.bound
      out := h.out
      marked := Bits.setNext_mark.trans h.marked
      number := Bits.setNext_number.trans h.number
      test := h.test
      child := fun j => ?_
      upper := fun j => ?_ }
    grows := fun _ ha => ha
    fresh := fun _ ha => .inl ha
    size := Nat.le_refl _
    keeps := fun a _ hne => Bits.setNext_bit_of_ne hne
    decide := fun answer => ?_
    upper := rfl }
  · rw [Bits.setNext_next]
    by_cases hj : j = edge
    · subst hj
      rw [Function.update_self, Function.update_self]
      exact ⟨d, rfl, h.done.closed c j d hX hd,
        h.done.unfolds hkeep (h.done.closed c j d hX hd) hbelow⟩
    · rw [Function.update_of_ne hj, Function.update_of_ne hj]
      obtain ⟨b, hb, hXb, hunfolds⟩ := h.child j
      exact ⟨b, hb, hXb, h.done.unfolds hkeep hXb hunfolds⟩
  · by_cases hj : j = edge
    · subst hj
      rw [Function.update_self]
      have hgood := h.good_child j
      rw [hT] at hgood
      exact upper_succ_le (hgood.1.2 j).1
    · rw [Function.update_of_ne hj]
      exact h.upper j
  · simp only [DecisionTree.decide]
    by_cases hj : answer n = edge
    · rw [hj, Function.update_self, hT]
      simp only [DecisionTree.decide, hj]
    · rw [Function.update_of_ne hj]

theorem mergeEdge_spec (h : Pending k currMark bits X bit n T) (edge : Bool) :
    ∃ bits' T', Runs (fun fuel => mergeEdge fuel bits bit edge) bits' ∧
      Step k currMark bits X bit n T bits' X n T' ∧
      T' (!edge) = T (!edge) ∧ (T' edge).size ≤ (T edge).size ∧
      n ≠ (T' edge).root := by
  generalize ht : T edge = t
  induction t generalizing bits T with
  | leaf r =>
      obtain ⟨c, hnext, hX, hc⟩ := h.child edge
      have hgood := h.good_child edge
      rw [ht] at hgood hc
      have hne : n ≠ r := isTest_ne_isDecision h.test hgood
      refine ⟨bits, T, .of_succ fun fuel => ?_, .refl h, rfl,
        Nat.le_of_eq (congrArg size ht), ?_⟩
      · have hr : bits.number c = r := hc.root_eq.symm
        rw [mergeEdge_succ hnext, h.number, hr, if_neg hne]
      · rw [ht]
        exact hne
  | node r ch ih =>
      obtain ⟨c, hnext, hX, hc⟩ := h.child edge
      rw [ht] at hc
      have hr : bits.number c = r := hc.root_eq.symm
      by_cases hne : n = r
      · subst hne
        obtain ⟨d, hd⟩ : ∃ d, bits.next c edge = some d := by
          cases hc with
          | node hdown hchild => exact ⟨_, hdown edge⟩
        have hstep := h.skip ht hnext hd
        obtain ⟨bits', T', hruns, hstep', hother, hsize, hroot⟩ :=
          ih edge hstep.pending (Function.update_self ..)
        refine ⟨bits', T', ?_, hstep.trans hstep', ?_, ?_, hroot⟩
        · refine hruns.step fun fuel => ?_
          have hsome : ((bits.setNext bit edge (some d)).next bit edge).isNone =
              false := by
            rw [Bits.setNext_next, Function.update_self]
            rfl
          rw [mergeEdge_succ hnext, h.number, hr, if_pos rfl, hd, hsome]
          rfl
        · rw [hother, Function.update_of_ne (by simp)]
        · exact Nat.le_trans hsize (Nat.le_of_lt (size_child n ch edge))
      · refine ⟨bits, T, .of_succ fun fuel => ?_, .refl h, rfl,
          Nat.le_of_eq (congrArg size ht), ?_⟩
        · rw [mergeEdge_succ hnext, h.number, hr, if_neg hne]
        · rw [ht]
          exact hne

/-! Edges that are in order are left alone. -/

variable {c : Nat}

/-- What keeps `fix_edge` from swapping. -/
def Stays (k : Nat) (a b : Number) : Prop :=
  samePartition (sorted k) a b = false ∨ a &&& border k = 0 ∨
    b &&& border k ≠ 0

theorem stays_iff (hk : k < 32) {a b : Number}
    (hle : upper (k + 1) a ≤ upper (k + 1) b) :
    Stays k a b ↔ upper k a ≤ upper k b := by
  rw [Stays, and_border_eq_zero_iff hk, ne_eq, and_border_eq_zero_iff hk,
    Bool.not_eq_false, ← Bool.not_eq_true, samePartition_iff]
  constructor
  · rintro (hne | hlow | hhigh)
    · exact Nat.le_of_lt (upper_lt_of_lt (Nat.lt_of_le_of_ne hle hne))
    · exact upper_le_of_low hle hlow
    · exact upper_le_of_high hle hhigh
  · intro h
    rw [upper_succ k a, upper_succ k b] at h
    cases ha : a.getLsbD k with
    | false => exact .inr (.inl rfl)
    | true =>
        cases hb : b.getLsbD k with
        | true => exact .inr (.inr rfl)
        | false =>
            rw [ha, hb, Bool.toNat_true, Bool.toNat_false] at h
            exact .inl (by omega)

theorem fixEdge_merged {fuel : Nat} {currBits : Bits}
    (hmerge : mergeEdge fuel bits bit edge = .ok currBits)
    (hnext : currBits.next bit edge = some c)
    (hstays : Stays k (currBits.number bit) (currBits.number c)) :
    fixEdge (border k) (sorted k) (fuel + 1) bits bit edge = .ok currBits := by
  rw [fixEdge, hmerge, Except.ok_bind, hnext]
  rcases hstays with hpart | hlow | hhigh
  · simp [hpart]
  · simp [hlow]
  · rw [BitVec.ofNat_eq_ofNat] at hhigh
    simp [hhigh]

theorem fixEdge_swaps {fuel : Nat} {currBits : Bits}
    (hmerge : mergeEdge fuel bits bit edge = .ok currBits)
    (hnext : currBits.next bit edge = some c)
    (hstays : ¬Stays k (currBits.number bit) (currBits.number c)) :
    fixEdge (border k) (sorted k) (fuel + 1) bits bit edge =
      swapBits (fixEdge (border k) (sorted k) fuel) fuel (sorted k) currBits bit
        edge := by
  simp only [Stays, not_or, Bool.not_eq_false, ne_eq, not_not] at hstays
  obtain ⟨hpart, hhigh, hlow⟩ := hstays
  simp only [fixEdge, hmerge, Except.ok_bind, hnext, hpart, hhigh, hlow,
    Bool.not_true, Bool.false_eq_true, if_false, ne_eq, not_true]

theorem fixEdge_good (hk : k < 32) (hnext : bits.next bit edge = some c)
    (hne : bits.number bit ≠ bits.number c)
    (hle : upper k (bits.number bit) ≤ upper k (bits.number c)) :
    Runs (fun fuel => fixEdge (border k) (sorted k) fuel bits bit edge) bits := by
  have hmerge : ∀ fuel, mergeEdge (fuel + 1) bits bit edge = .ok bits := by
    intro fuel
    rw [mergeEdge_succ hnext, if_neg hne]
  refine .step (y := fun fuel => fixEdge (border k) (sorted k) (fuel + 1) bits bit edge)
    (.of_succ fun fuel => ?_) fun fuel => rfl
  exact fixEdge_merged (hmerge fuel) hnext
    ((stays_iff hk (upper_succ_le hle)).mpr hle)

/-! Both edges. -/

/-- What `fix_edge` achieves for one edge: if it swaps, then it is done with
both. -/
def Fixed (k : Nat) (n : Number) (T : Bool → DecisionTree Number) (edge : Bool)
    (n' : Number) (T' : Bool → DecisionTree Number) : Prop :=
  (n' = n ∧ T' (!edge) = T (!edge) ∧ EdgeGood k n (T' edge) ∧
    (T' edge).size ≤ (T edge).size) ∨ ∀ j, EdgeGood k n' (T' j)

/-- `fix_edge` works for pending nodes with less than `size` nodes below. -/
def FixSpec (k : Nat) (currMark : Bool) (size : Nat) : Prop :=
  ∀ {bits : Bits} {X : Nat → Prop} {bit : Nat} {n : Number}
    {T : Bool → DecisionTree Number} (edge : Bool),
    Pending k currMark bits X bit n T →
    (T false).size + (T true).size < size →
    ∃ bits' X' n' T',
      Runs (fun fuel => fixEdge (border k) (sorted k) fuel bits bit edge) bits' ∧
      Step k currMark bits X bit n T bits' X' n' T' ∧ Fixed k n T edge n' T'

theorem Pending.fixEdge_good (hk : k < 32)
    (h : Pending k currMark bits X bit n T) (hgood : EdgeGood k n (T edge)) :
    Runs (fun fuel => fixEdge (border k) (sorted k) fuel bits bit edge) bits := by
  obtain ⟨c, hnext, -, hc⟩ := h.child edge
  rw [← h.number, EdgeGood, hc.root_eq] at hgood
  exact FastBit.fixEdge_good hk hnext hgood.2 hgood.1

theorem fixEdges_runs {bits₁ bits₂ : Bits} {needed : Bits → Bool → Bool}
    {fix : Nat → Bits → Bool → Except Stop Bits}
    (h : Runs (fun fuel =>
      if needed bits false then fix fuel bits false else .ok bits) bits₁)
    (h' : Runs (fun fuel =>
      if needed bits₁ true then fix fuel bits₁ true else .ok bits₁) bits₂) :
    Runs (fun fuel => fixEdges needed (fix fuel) bits) bits₂ := by
  have hboth := h.bind (f := fun fuel bits =>
    if needed bits true then fix fuel bits true else .ok bits) h'
  unfold fixEdges
  cases hnow : needed bits false with
  | true => simpa only [hnow, if_true] using hboth
  | false => simpa only [hnow, Bool.false_eq_true, if_false] using hboth

/-- Both edges are looked at where it is needed, the second one after the first
may have been swapped. -/
theorem fixEdges_spec (hk : k < 32) {size : Nat} (hfix : FixSpec k currMark size)
    (h : Pending k currMark bits X bit n T)
    (hsize : (T false).size + (T true).size < size)
    (needed : Bits → Bool → Bool)
    (hneeded : ∀ bits' X' n' T' j, Step k currMark bits X bit n T bits' X' n' T' →
      needed bits' j = false → EdgeGood k n' (T' j)) :
    ∃ bits' X' n' T',
      Runs (fun fuel => fixEdges needed
        (fun bits j => fixEdge (border k) (sorted k) fuel bits bit j) bits) bits' ∧
      Step k currMark bits X bit n T bits' X' n' T' ∧ ∀ j, EdgeGood k n' (T' j) := by
  have hfirst : ∃ bits' X' n' T',
      Runs (fun fuel => if needed bits false then
        fixEdge (border k) (sorted k) fuel bits bit false else .ok bits) bits' ∧
      Step k currMark bits X bit n T bits' X' n' T' ∧
      Fixed k n T false n' T' := by
    cases hnow : needed bits false with
    | true => exact hfix false h hsize
    | false =>
        have hgood := hneeded _ _ _ _ false (.refl h) hnow
        exact ⟨bits, X, n, T, .of_eq fun _ => rfl, .refl h,
          .inl ⟨rfl, rfl, hgood, Nat.le_refl _⟩⟩
  obtain ⟨bits₁, X₁, n₁, T₁, hruns₁, hstep₁, hfixed₁⟩ := hfirst
  have hsecond : ∃ bits' X' n' T',
      Runs (fun fuel => if needed bits₁ true then
        fixEdge (border k) (sorted k) fuel bits₁ bit true else .ok bits₁) bits' ∧
      Step k currMark bits₁ X₁ bit n₁ T₁ bits' X' n' T' ∧
      ∀ j, EdgeGood k n' (T' j) := by
    cases hnow : needed bits₁ true with
    | false =>
        have hgood := hneeded _ _ _ _ true hstep₁ hnow
        refine ⟨bits₁, X₁, n₁, T₁, .of_eq fun _ => rfl, .refl hstep₁.pending, ?_⟩
        rcases hfixed₁ with ⟨rfl, -, hedge, -⟩ | hall
        · exact Bool.forall_bool.mpr ⟨hedge, hgood⟩
        · exact hall
    | true =>
        rcases hfixed₁ with ⟨rfl, hother, hedge, hle⟩ | hall
        · have hsize₁ : (T₁ false).size + (T₁ true).size < size := by
            rw [Bool.not_false] at hother
            rw [hother]
            omega
          obtain ⟨bits₂, X₂, n₂, T₂, hruns₂, hstep₂, hfixed₂⟩ :=
            hfix true hstep₁.pending hsize₁
          refine ⟨bits₂, X₂, n₂, T₂, hruns₂, hstep₂, ?_⟩
          rcases hfixed₂ with ⟨rfl, hother₂, hedge₂, -⟩ | hall₂
          · rw [Bool.not_true] at hother₂
            exact Bool.forall_bool.mpr ⟨hother₂ ▸ hedge, hedge₂⟩
          · exact hall₂
        · exact ⟨bits₁, X₁, n₁, T₁, hstep₁.pending.fixEdge_good hk (hall true),
            .refl hstep₁.pending, hall⟩
  obtain ⟨bits₂, X₂, n₂, T₂, hruns₂, hstep₂, hgood₂⟩ := hsecond
  exact ⟨bits₂, X₂, n₂, T₂, fixEdges_runs hruns₁ hruns₂, hstep₁.trans hstep₂, hgood₂⟩

/-- Nodes that are done stay as they are. -/
theorem fixEdges_done (hk : k < 32) (h : Done k currMark bits X) (hbit : X bit)
    (needed : Bits → Bool → Bool)
    (hneeded : ∀ j, needed bits j = true → (bits.next bit j).isSome) :
    Runs (fun fuel => fixEdges needed
      (fun bits j => fixEdge (border k) (sorted k) fuel bits bit j) bits) bits := by
  have hedge : ∀ j, Runs (fun fuel => if needed bits j then
      fixEdge (border k) (sorted k) fuel bits bit j else .ok bits) bits := by
    intro j
    cases hnow : needed bits j with
    | false => exact .of_eq fun _ => rfl
    | true =>
        obtain ⟨c, hc⟩ := Option.isSome_iff_exists.mp (hneeded j hnow)
        obtain ⟨t, ht, hgood⟩ := h.good bit hbit
        obtain ⟨child, rfl, hchild⟩ := ht.child hc
        have hright := hgood.1.2 j
        rw [EdgeGood, hchild.root_eq] at hright
        exact fixEdge_good hk hc hright.2 hright.1
  exact fixEdges_runs (hedge false) (hedge true)

/-! Cloning. -/

theorem Pending.frame (h : Pending k currMark bits X bit n T)
    (hdone : Done k currMark bits' X') (hgrows : ∀ a, X a → X' a)
    (hfresh : ∀ a, X' a → X a ∨ bits.size ≤ a) (hsize : bits.size ≤ bits'.size)
    (hkeeps : ∀ a, a < bits.size → bits'.bit a = bits.bit a) :
    Pending k currMark bits' X' bit n T where
  done := hdone
  bound := Nat.lt_of_lt_of_le h.bound hsize
  out hbit := by
    rcases hfresh bit hbit with hX | hlarge
    · exact h.out hX
    · exact absurd h.bound (Nat.not_lt.mpr hlarge)
  marked := (Bits.mark_congr (hkeeps bit h.bound)).trans h.marked
  number := (Bits.number_congr (hkeeps bit h.bound)).trans h.number
  test := h.test
  child j := by
    obtain ⟨c, hnext, hX, hc⟩ := h.child j
    rw [Bits.next_congr (hkeeps bit h.bound)]
    exact ⟨c, hnext, hgrows c hX,
      h.done.unfolds (fun a ha => hkeeps a (h.done.bounded a ha)) hX hc⟩
  upper := h.upper

/-- A clone with other children. -/
theorem Pending.alloc (h : Pending k currMark bits X bit n T)
    (below : Bool → DecisionTree Number) (next : Bool → Option Nat)
    (hchild : ∀ j, ∃ c, next j = some c ∧ X c ∧ bits.Unfolds c (below j))
    (hupper : ∀ j, FastBit.upper (k + 1) n ≤ FastBit.upper (k + 1) (below j).root) :
    Pending k currMark (bits.alloc { bits.bit bit with next }) X bits.size n
      below := by
  have hkeep : ∀ a, X a →
      (bits.alloc { bits.bit bit with next }).bit a = bits.bit a := by
    intro a ha
    exact Bits.alloc_bit_of_ne (Nat.ne_of_lt (h.done.bounded a ha))
  have hcontent : (bits.alloc { bits.bit bit with next }).bit bits.size =
      { bits.bit bit with next } := Bits.alloc_bit
  refine {
    done := h.done.frame hkeep (Nat.le_succ _)
    bound := Nat.lt_succ_self _
    out := fun hX => Nat.lt_irrefl _ (h.done.bounded _ hX)
    marked := ?_
    number := ?_
    test := h.test
    child := fun j => ?_
    upper := hupper }
  · rw [Bits.mark, hcontent]
    exact h.marked
  · rw [Bits.number, hcontent]
    exact h.number
  · obtain ⟨c, hnext, hX, hc⟩ := hchild j
    rw [Bits.next, hcontent]
    exact ⟨c, hnext, hX, h.done.unfolds hkeep hX hc⟩

/-- The children of a clone. -/
def swapped (edge : Bool) (t u : DecisionTree Number) (j : Bool) :
    DecisionTree Number :=
  if j = edge then t else u

theorem swapped_size (edge : Bool) (t u : DecisionTree Number) :
    (swapped edge t u false).size + (swapped edge t u true).size =
      t.size + u.size := by
  cases edge with
  | false => rfl
  | true => exact Nat.add_comm u.size t.size

/-- A clone is done, and `bit` is as before. -/
structure Cloned (k : Nat) (currMark : Bool) (bits : Bits) (X : Nat → Prop)
    (bit : Nat) (n : Number) (T : Bool → DecisionTree Number)
    (below : Bool → DecisionTree Number) (bits' : Bits) (X' : Nat → Prop)
    (clone : Nat) (u : DecisionTree Number) : Prop where
  pending : Pending k currMark bits' X' bit n T
  grows : ∀ a, X a → X' a
  fresh : ∀ a, X' a → X a ∨ bits.size ≤ a
  size : bits.size ≤ bits'.size
  keeps : ∀ a, a < bits.size → bits'.bit a = bits.bit a
  mem : X' clone
  unfolds : bits'.Unfolds clone u
  decide : ∀ answer, u.decide answer = (node n below).decide answer
  upper : FastBit.upper (k + 1) n ≤ FastBit.upper (k + 1) u.root

theorem cloneBit_quick {fix : Bits → Nat → Bool → Except Stop Bits}
    {sorted : Number} {i : Bool} {d : Nat} (hnext : bits.next bit edge = some c)
    (hother : bits.next bit (!edge) = some d) (hd : bits.next c i = some d) :
    cloneBit fix sorted bits bit edge i =
      fixEdges (broken sorted bit d) (fun bits j => fix bits d j) bits >>=
        fun bits => .ok (bits, d) := by
  rw [cloneBit, Bits.follow_eq hnext, Except.ok_bind, hd, hother, if_pos rfl,
    Bits.follow_eq hother, Except.ok_bind]

theorem cloneBit_slow {fix : Bits → Nat → Bool → Except Stop Bits}
    {sorted : Number} {i : Bool} (hnext : bits.next bit edge = some c)
    (hne : bits.next c i ≠ bits.next bit (!edge)) :
    cloneBit fix sorted bits bit edge i =
      fixEdges (broken sorted bit bits.size)
        (fun bits' j => fix bits' bits.size j)
        (bits.alloc { bits.bit bit with
          next := fun j =>
            if j = edge then bits.next c i else bits.next bit (!edge) }) >>=
        fun bits' => .ok (bits', bits.size) := by
  rw [cloneBit, Bits.follow_eq hnext, Except.ok_bind, if_neg hne]

theorem isSome_of_broken {sorted : Number} {clone : Nat} {j : Bool}
    (h : broken sorted bit clone bits j = true) :
    (bits.next clone j).isSome := by
  unfold broken at h
  cases hnext : bits.next clone j with
  | none =>
      rw [hnext] at h
      cases h
  | some c => rfl

/-- An edge that is not looked at leads to a different partition. -/
theorem edgeGood_of_not_broken {clone : Nat} {j : Bool}
    (h : Pending k currMark bits X clone n' T)
    (hnumber : upper (k + 1) (bits.number bit) = upper (k + 1) n')
    (hnot : broken (sorted k) bit clone bits j = false) :
    EdgeGood k n' (T j) := by
  obtain ⟨c, hnext, -, hc⟩ := h.child j
  have hsame : samePartition (sorted k) (bits.number bit) n' = true :=
    samePartition_iff.mpr hnumber
  simp only [broken, hnext, h.number, hsame, Bool.true_and] at hnot
  rw [← hc.root_eq, ← Bool.not_eq_true, samePartition_iff, hnumber] at hnot
  refine ⟨Nat.le_of_lt (upper_lt_of_lt ?_), fun heq => hnot (congrArg _ heq)⟩
  exact Nat.lt_of_le_of_ne (h.upper j) hnot

theorem cloneBit_spec (hk : k < 32) {size : Nat} (hfix : FixSpec k currMark size)
    (h : Pending k currMark bits X bit n T) {r : Number}
    {ch : Bool → DecisionTree Number} (hT : T edge = .node r ch) (i : Bool)
    (hsize : (ch i).size + (T (!edge)).size < size) :
    ∃ bits' X' clone u,
      Runs (fun fuel => cloneBit (fixEdge (border k) (sorted k) fuel) (sorted k)
        bits bit edge i) (bits', clone) ∧
      Cloned k currMark bits X bit n T (swapped edge (ch i) (T (!edge)))
        bits' X' clone u := by
  obtain ⟨c, hnext, hXc, hc⟩ := h.child edge
  obtain ⟨d, hother, hXd, hd⟩ := h.child (!edge)
  rw [hT] at hc
  obtain ⟨e, he⟩ : ∃ e, bits.next c i = some e := by
    cases hc with
    | node hdown hchild => exact ⟨_, hdown i⟩
  obtain ⟨child, hchild, hbelow⟩ := hc.child he
  injection hchild with hlabel hfun
  subst hfun
  have hXe := h.done.closed c i e hXc he
  by_cases hsame : e = d
  · subst hsame
    have hfixed := fixEdges_done hk h.done hXd (broken (sorted k) bit e)
      fun j => isSome_of_broken
    refine ⟨bits, X, e, T (!edge), ?_, {
      pending := h
      grows := fun _ ha => ha
      fresh := fun _ ha => .inl ha
      size := Nat.le_refl _
      keeps := fun _ _ => rfl
      mem := hXd
      unfolds := hd
      decide := fun answer => ?_
      upper := h.upper (!edge) }⟩
    · simp only [cloneBit_quick hnext hother he]
      exact hfixed.bind (.of_eq fun _ => rfl)
    · have hboth : swapped edge (ch i) (T (!edge)) (answer n) = T (!edge) := by
        rw [swapped, hbelow.unique hd, ite_self]
      simp only [DecisionTree.decide, hboth]
  · have hne : bits.next c i ≠ bits.next bit (!edge) := by
      rw [he, hother]
      exact fun heq => hsame (Option.some.inj heq)
    have hgood := h.good_child edge
    rw [hT] at hgood
    have hupper := h.upper edge
    rw [hT] at hupper
    have hpending := h.alloc (swapped edge (ch i) (T (!edge)))
      (fun j =>
        if j = edge then bits.next c i else bits.next bit (!edge))
      (fun j => by
        unfold swapped
        split
        · exact ⟨e, he, hXe, hbelow⟩
        · exact ⟨d, hother, hXd, hd⟩)
      (fun j => by
        unfold swapped
        split
        · exact Nat.le_trans hupper (upper_succ_le (hgood.1.2 i).1)
        · exact h.upper (!edge))
    have hold : ∀ {bits' : Bits} {X' : Nat → Prop} {n' : Number}
        {T' : Bool → DecisionTree Number},
        Step k currMark (bits.alloc { bits.bit bit with
          next := fun j =>
            if j = edge then bits.next c i else bits.next bit (!edge) })
          X bits.size n (swapped edge (ch i) (T (!edge))) bits' X' n' T' →
        ∀ a, a < bits.size → bits'.bit a = bits.bit a := by
      intro bits' X' n' T' hstep a ha
      rw [hstep.keeps a (Nat.lt_succ_of_lt ha) (Nat.ne_of_lt ha),
        Bits.alloc_bit_of_ne (Nat.ne_of_lt ha)]
    obtain ⟨bits', X', n', T', hruns, hstep, hedges⟩ :=
      fixEdges_spec hk hfix hpending
        ((swapped_size ..).trans_lt hsize)
        (broken (sorted k) bit bits.size)
        fun bits' X' n' T' j hstep hnot => by
          refine edgeGood_of_not_broken hstep.pending ?_ hnot
          rw [Bits.number_congr (hold hstep bit h.bound), h.number, hstep.upper]
    have hdone := hstep.pending.done_insert hedges
    have hsizes := Nat.le_of_succ_le hstep.size
    have hgrows : ∀ a, X a → X' a ∨ a = bits.size :=
      fun a ha => .inl (hstep.grows a ha)
    have hfresh : ∀ a, X' a ∨ a = bits.size → X a ∨ bits.size ≤ a := by
      intro a ha
      rcases ha with ha | rfl
      · exact (hstep.fresh a ha).imp_right Nat.le_of_succ_le
      · exact .inr (Nat.le_refl _)
    refine ⟨bits', fun a => X' a ∨ a = bits.size, bits.size, .node n' T', ?_, {
      pending := h.frame hdone hgrows hfresh hsizes (hold hstep)
      grows := hgrows
      fresh := hfresh
      size := hsizes
      keeps := hold hstep
      mem := .inr rfl
      unfolds := hstep.pending.unfolds
      decide := hstep.decide
      upper := Nat.le_of_eq hstep.upper.symm }⟩
    simp only [cloneBit_slow hnext hne]
    exact hruns.bind (.of_eq fun _ => rfl)

/-! Swapping. -/

/-- A test in the higher part does not come before a decision in the lower
part. -/
theorem upper_le_of_isDecision {a b : Number} (ha : IsTest a) (hb : IsDecision b)
    (hle : upper (k + 1) a ≤ upper (k + 1) b) : upper k a ≤ upper k b := by
  cases hbit : a.getLsbD k with
  | false => exact upper_le_of_low hle hbit
  | true =>
      have hsmall : k < 28 := by
        by_contra hlarge
        have hzero : upper 28 a = upper 28 0#32 := ha
        rw [upper_eq_iff] at hzero
        rw [hzero k (Nat.le_of_not_lt hlarge), BitVec.getLsbD_zero] at hbit
        cases hbit
      refine Nat.le_of_lt (upper_lt_of_lt (Nat.lt_of_le_of_ne hle fun heq => ?_))
      have htag := upper_eq_of_le heq (m := 28) hsmall
      have hlarge := hb.1
      rw [← htag, ha] at hlarge
      omega

theorem swapBits_eq {fix : Bits → Nat → Bool → Except Stop Bits} {fuel : Nat}
    {sorted : Number} {bits₁ bits₂ bits₃ : Bits} {clone0 clone1 : Nat}
    (hfirst : cloneBit fix sorted bits bit edge false = .ok (bits₁, clone0))
    (hsecond : cloneBit fix sorted bits₁ bit edge true = .ok (bits₂, clone1))
    (hnext : bits₂.next bit edge = some c)
    (hmerge : mergeEdge fuel (bits₂.store bit { bits₂.bit bit with
      number := bits₂.number c
      mark := bits₂.mark c
      next := fun j => some (if j then clone1 else clone0) }) bit false =
        .ok bits₃)
    (hsome : (bits₃.next bit false).isSome) :
    swapBits fix fuel sorted bits bit edge = mergeEdge fuel bits₃ bit true := by
  rw [Option.isSome_iff_ne_none] at hsome
  simp only [swapBits, hfirst, hsecond, Except.ok_bind, Bits.follow_eq hnext,
    hmerge, Option.isNone_iff_eq_none, hsome, if_false]

/-- The node as the other test, with the clones below. -/
theorem Pending.store (h : Pending k currMark bits X bit n T) {r : Number}
    (clone : Bool → Nat) (below : Bool → DecisionTree Number)
    (htest : IsTest r)
    (hchild : ∀ j, X (clone j) ∧ bits.Unfolds (clone j) (below j))
    (hupper : ∀ j, FastBit.upper (k + 1) r ≤ FastBit.upper (k + 1) (below j).root) :
    Pending k currMark (bits.store bit { bits.bit bit with
      number := r
      mark := currMark
      next := fun j => some (clone j) }) X bit r below := by
  have hkeep : ∀ a, X a → (bits.store bit { bits.bit bit with
      number := r
      mark := currMark
      next := fun j => some (clone j) }).bit a = bits.bit a := by
    intro a ha
    exact Bits.store_bit_of_ne fun heq => h.out (heq ▸ ha)
  refine {
    done := h.done.frame hkeep (Nat.le_refl _)
    bound := h.bound
    out := h.out
    marked := ?_
    number := ?_
    test := htest
    child := fun j => ?_
    upper := hupper }
  · rw [Bits.mark, Bits.store_bit]
  · rw [Bits.number, Bits.store_bit]
  · rw [Bits.next, Bits.store_bit]
    exact ⟨clone j, rfl, (hchild j).1, h.done.unfolds hkeep (hchild j).1 (hchild j).2⟩

/-- The order of two tests does not matter. -/
theorem decide_swapped {r : Number} {ch : Bool → DecisionTree Number}
    (hT : T edge = .node r ch) {u : Bool → DecisionTree Number}
    {answer : Number → Bool}
    (hu : ∀ i, (u i).decide answer =
      (node n (swapped edge (ch i) (T (!edge)))).decide answer) :
    (node r u).decide answer = (node n T).decide answer := by
  simp only [DecisionTree.decide, hu, swapped]
  split
  next hn =>
    rw [hn, hT]
    rfl
  next hn =>
    rw [Bool.eq_not_of_ne hn]

theorem swapBits_spec (hk : k < 32) {size : Nat} (hfix : FixSpec k currMark size)
    (h : Pending k currMark bits X bit n T) {r : Number}
    {ch : Bool → DecisionTree Number} (hT : T edge = .node r ch)
    (hpart : upper (k + 1) r = upper (k + 1) n) (hlow : r.getLsbD k = false)
    (hsize : ∀ i, (ch i).size + (T (!edge)).size < size) :
    ∃ bits' X' n' T',
      Runs (fun fuel => swapBits (fixEdge (border k) (sorted k) fuel) fuel
        (sorted k) bits bit edge) bits' ∧
      Step k currMark bits X bit n T bits' X' n' T' ∧ ∀ j, EdgeGood k n' (T' j) := by
  obtain ⟨bits₁, X₁, clone0, u0, ⟨m₁, hruns₁⟩, hclone₁⟩ :=
    cloneBit_spec hk hfix h hT false (hsize false)
  obtain ⟨bits₂, X₂, clone1, u1, ⟨m₂, hruns₂⟩, hclone₂⟩ :=
    cloneBit_spec hk hfix hclone₁.pending hT true (hsize true)
  obtain ⟨c, hnext, hXc, hc⟩ := hclone₂.pending.child edge
  have hgood := hclone₂.pending.good_child edge
  rw [hT] at hc hgood
  have hr : bits₂.number c = r := hc.root_eq.symm
  have hmark := hclone₂.pending.done.marked c hXc
  have hX0 := hclone₂.grows clone0 hclone₁.mem
  have hu0 : bits₂.Unfolds clone0 u0 :=
    hclone₁.pending.done.unfolds
      (fun a ha => hclone₂.keeps a (hclone₁.pending.done.bounded a ha))
      hclone₁.mem hclone₁.unfolds
  have hstored := hclone₂.pending.store (r := r)
    (fun j => if j then clone1 else clone0) (fun j => if j then u1 else u0) hgood.1.1
    (Bool.forall_bool.mpr ⟨⟨hX0, hu0⟩, ⟨hclone₂.mem, hclone₂.unfolds⟩⟩)
    (Bool.forall_bool.mpr
      ⟨hpart ▸ hclone₁.upper, hpart ▸ hclone₂.upper⟩)
  have hstep : Step k currMark bits X bit n T
      (bits₂.store bit { bits₂.bit bit with
        number := r
        mark := currMark
        next := fun j => some (if j then clone1 else clone0) }) X₂ r
      (fun j => if j then u1 else u0) := by
    refine {
      pending := hstored
      grows := fun a ha => hclone₂.grows a (hclone₁.grows a ha)
      fresh := fun a ha => ?_
      size := Nat.le_trans hclone₁.size hclone₂.size
      keeps := fun a ha hne => ?_
      decide := fun answer => ?_
      upper := hpart }
    · rcases hclone₂.fresh a ha with ha | ha
      · exact hclone₁.fresh a ha
      · exact .inr (Nat.le_trans hclone₁.size ha)
    · rw [Bits.store_bit_of_ne hne,
        hclone₂.keeps a (Nat.lt_of_lt_of_le ha hclone₁.size), hclone₁.keeps a ha]
    · exact decide_swapped hT
        (Bool.forall_bool.mpr ⟨hclone₁.decide answer, hclone₂.decide answer⟩)
  obtain ⟨bits₃, T₃, ⟨m₃, hruns₃⟩, hstep₃, -, -, hroot₃⟩ :=
    mergeEdge_spec hstored false
  obtain ⟨bits₄, T₄, ⟨m₄, hruns₄⟩, hstep₄, hother₄, -, hroot₄⟩ :=
    mergeEdge_spec hstep₃.pending true
  refine ⟨bits₄, X₂, r, T₄, ?_, (hstep.trans hstep₃).trans hstep₄, fun j => ?_⟩
  · refine ⟨max (max m₁ m₂) (max m₃ m₄), fun fuel hfuel => ?_⟩
    obtain ⟨d, hd, -⟩ := hstep₃.pending.child false
    show swapBits _ fuel _ bits bit edge = .ok bits₄
    rw [swapBits_eq (hruns₁ fuel (by omega)) (hruns₂ fuel (by omega)) hnext
      (by rw [hr, hmark]; exact hruns₃ fuel (by omega))
      (by rw [hd]; rfl)]
    exact hruns₄ fuel (by omega)
  · have hne : r ≠ (T₄ j).root := by
      cases j with
      | false =>
          rw [Bool.not_true] at hother₄
          rw [hother₄]
          exact hroot₃
      | true => exact hroot₄
    exact ⟨upper_le_of_low (hstep₄.pending.upper j) hlow, hne⟩

/-- `fix_edge` mends an edge, whatever is shared below. -/
theorem fixSpec (hk : k < 32) (currMark : Bool) (size : Nat) :
    FixSpec k currMark size := by
  induction size with
  | zero =>
      intro _ _ _ _ _ _ _ hsize
      cases hsize
  | succ size ih =>
      intro bits X bit n T edge h hsize
      obtain ⟨bits₁, T₁, hruns₁, hstep₁, hother, hle, hroot⟩ :=
        mergeEdge_spec h edge
      obtain ⟨c, hnext, -, hc⟩ := hstep₁.pending.child edge
      have hupper := hstep₁.pending.upper edge
      have hnumber := hstep₁.pending.number
      have hstays : Stays k (bits₁.number bit) (bits₁.number c) ↔
          upper k n ≤ upper k (T₁ edge).root := by
        rw [hnumber, ← hc.root_eq]
        exact stays_iff hk hupper
      by_cases hle' : upper k n ≤ upper k (T₁ edge).root
      · refine ⟨bits₁, X, n, T₁, ?_, hstep₁,
          .inl ⟨rfl, hother, ⟨hle', hroot⟩, hle⟩⟩
        exact hruns₁.continue_with fun fuel hmerge =>
          fixEdge_merged hmerge hnext (hstays.mpr hle')
      · cases ht : T₁ edge with
        | leaf r =>
            have hgood := hstep₁.pending.good_child edge
            rw [ht] at hgood hupper hle'
            exact absurd (upper_le_of_isDecision h.test hgood hupper) hle'
        | node r ch =>
            rw [ht] at hupper hle' hle hstays
            obtain ⟨hpart, hlow⟩ := upper_of_not_le hupper hle'
            have hsmall : ∀ i, (ch i).size + (T₁ (!edge)).size < size := by
              intro i
              have hlt := size_child r ch i
              rw [hother]
              cases edge <;> simp only [Bool.not_false, Bool.not_true] <;> omega
            obtain ⟨bits₂, X₂, n₂, T₂, hruns₂, hstep₂, hgood₂⟩ :=
              swapBits_spec hk ih hstep₁.pending ht hpart hlow hsmall
            refine ⟨bits₂, X₂, n₂, T₂, ?_, hstep₁.trans hstep₂, .inr hgood₂⟩
            obtain ⟨m, hm⟩ := hruns₁.and hruns₂
            refine Runs.step ⟨m, fun fuel hfuel => ?_⟩ fun fuel => rfl
            obtain ⟨hmerge, hswap⟩ := hm fuel hfuel
            rw [fixEdge_swaps hmerge hnext (mt hstays.mp hle')]
            exact hswap

end Tcng.FastBit
