import Mathlib.Algebra.Ring.Nat
import Tcng.Iflib.FastBitDag
import Tcng.Iflib.FastBitSortDag
import Tcng.Lib.MaskShift

/-! The diagram `make_dag` builds decides like the expression, and goes on to do
so when it is sorted. -/

namespace Tcng.FastBit

open MaskShift DecisionTree ShortCircuit

/-! Accesses with masks and shifts around them. -/

/-- An access and the steps from it to the operand, the last one first. The
number of a field root has to fit below the tag. -/
inductive Access (offset length : BitVec 32) :
    List MaskShift.Step → Data → Prop
  | access (t : DataType) :
      Access offset length []
        (.op .access t .none (.unum offset) (.unum length))
  | left {ss : List MaskShift.Step} {a : Data} (t : DataType) (n : BitVec 32)
      (hn : n.toNat < 32) (ha : Access offset length ss a) :
      Access offset length (.left n.toNat :: ss)
        (.op .shiftLeft t a (.unum n) .none)
  | right {ss : List MaskShift.Step} {a : Data} (t : DataType) (n : BitVec 32)
      (hn : n.toNat < 32) (ha : Access offset length ss a) :
      Access offset length (.right n.toNat :: ss)
        (.op .shiftRight t a (.unum n) .none)
  | mask {ss : List MaskShift.Step} {a : Data} (t : DataType) (n : BitVec 32)
      (ha : Access offset length ss a) :
      Access offset length (.mask n.toNat :: ss) (.op .and t a (.unum n) .none)
  | maskFirst {ss : List MaskShift.Step} {a : Data} (t : DataType)
      (n : BitVec 32) (ha : Access offset length ss a) :
      Access offset length (.mask n.toNat :: ss) (.op .and t (.unum n) a .none)
  | root {ss : List MaskShift.Step} {a : Data} (t : DataType) (group : Nat)
      (hgroup : group < 4096) (ha : Access offset length ss a) :
      Access offset length ss (.op .fieldRoot t a (.fieldRoot group) .none)

section

variable {offset length : BitVec 32} {ss : List MaskShift.Step} {a : Data}

theorem Access.width (h : Access offset length ss a) (hlength : length.toNat ≤ 32) :
    a.width = 32 := by
  induction h with
  | access t =>
      rw [Data.width, if_neg]
      intro h
      rw [h] at hlength
      exact absurd hlength (by decide)
  | left t n hn ha ih | right t n hn ha ih => exact ih
  | mask t n ha ih =>
      simp only [Data.width, ih]
      rfl
  | maskFirst t n ha ih =>
      simp only [Data.width, ih]
      rfl
  | root t group hgroup ha ih => exact ih

/-- The group the access is in. -/
def accessGroup : Data → Nat → Nat
  | .op .fieldRoot _ a b _, group => accessGroup a (b.rootOr group)
  | .op .and _ (.unum _) a _, group => accessGroup a group
  | .op .and _ a _ _, group | .op .shiftLeft _ a _ _, group
  | .op .shiftRight _ a _ _, group => accessGroup a group
  | _, group => group

theorem Access.accessGroup_mask (h : Access offset length ss a) (t : DataType)
    (b : Data) (group : Nat) :
    accessGroup (.op .and t a b .none) group = accessGroup a group := by
  cases h <;> rfl

/-- What the access reads. -/
def accessed (packet : Packet) (a : Data) (group : Nat) (offset length : BitVec 32) :
    Nat :=
  readBits (packet (accessGroup a group)) (8 * offset.toNat) length.toNat

theorem accessed_lt (packet : Packet) (a : Data) (group : Nat)
    (offset : BitVec 32) (hlength : length.toNat ≤ 32) :
    accessed packet a group offset length < 2 ^ 32 :=
  Nat.lt_of_lt_of_le (readBits_lt _ _ _)
    (Nat.pow_le_pow_right (by decide) hlength)

theorem Access.num (h : Access offset length ss a) (hlength : length.toNat ≤ 32)
    (packet : Packet) (group : Nat) :
    a.num packet ⟨group, 0⟩ =
      kept 32 ss (accessed packet a group offset length) := by
  induction h generalizing group with
  | access t =>
      simp only [Data.num, Nat.zero_add]
      rfl
  | left t n hn ha ih =>
      simp only [Data.num, numOp, Data.width, ha.width hlength, ih, Nat.max_self,
        Nat.shiftLeft_eq]
      rfl
  | @right ss a t n hn ha ih =>
      have hlt := kept_lt ss (accessed_lt packet a group offset hlength)
      have hdiv : kept 32 ss (accessed packet a group offset length) /
          2 ^ n.toNat < 2 ^ 32 := Nat.lt_of_le_of_lt (Nat.div_le_self ..) hlt
      simp only [Data.num, numOp, ih, Nat.shiftRight_eq_div_pow]
      exact (Nat.mod_eq_of_lt hdiv).symm
  | @mask ss a t n ha ih =>
      have hlt := kept_lt ss (accessed_lt packet a group offset hlength)
      have hgroup := ha.accessGroup_mask t (.unum n) group
      simp only [Data.num, numOp, ih, accessed, hgroup]
      exact (Nat.mod_eq_of_lt (Nat.lt_of_le_of_lt Nat.and_le_left hlt)).symm
  | @maskFirst ss a t n ha ih =>
      have hlt := kept_lt ss (accessed_lt packet a group offset hlength)
      simp only [Data.num, numOp, ih]
      rw [Nat.and_comm]
      exact (Nat.mod_eq_of_lt (Nat.lt_of_le_of_lt Nat.and_le_left hlt)).symm
  | root t g hg ha ih => exact ih g

theorem Access.eqOperand_mask (h : Access offset length ss a)
    (getOffsetGroup : Data → Nat → Nat) (mask mask' : Number) (shift : Int)
    (group : Nat) (t : DataType) (n : BitVec 32) :
    FastBit.eqOperand getOffsetGroup (.op .and t a (.unum n) .none) mask mask'
        shift group =
      FastBit.eqOperand getOffsetGroup a (mask &&& n) (mask' &&& n) shift group := by
  cases h <;> rfl

/-- The masks are carried along, and the shifts added up. -/
theorem Access.eqOperand (h : Access offset length ss a)
    (getOffsetGroup : Data → Nat → Nat) (mask mask' : Number) (shift : Int)
    (group : Nat) :
    ∃ fieldMask valueMask,
      eqOperand getOffsetGroup a mask mask' shift group =
        .ok ⟨.unum offset, .unum length, fieldMask, valueMask,
          shift + rights ss - lefts ss, accessGroup a group⟩ ∧
      fieldMask.toNat = back 32 ss mask.toNat ∧
      valueMask.toNat = back 32 ss mask'.toNat := by
  induction h generalizing mask mask' shift group with
  | access t =>
      refine ⟨mask, mask', ?_, rfl, rfl⟩
      simp [FastBit.eqOperand, rights, lefts, accessGroup]
  | @left ss a t n hn ha ih =>
      obtain ⟨fieldMask, valueMask, heq, hfield, hvalue⟩ :=
        ih (mask >>> n.toNat) (mask' >>> n.toNat) (shift - n.toNat) group
      refine ⟨fieldMask, valueMask, ?_, ?_, ?_⟩
      · have hshift : shift - n.toNat + rights ss - lefts ss =
            shift + rights (.left n.toNat :: ss) -
              lefts (.left n.toNat :: ss) := by
          simp only [rights, lefts, List.map_cons, List.sum_cons,
            MaskShift.Step.rights, MaskShift.Step.lefts]
          omega
        rw [FastBit.eqOperand, if_neg (Nat.not_le.mpr hn), heq, hshift]
        rfl
      · rw [hfield, BitVec.toNat_ushiftRight, Nat.shiftRight_eq_div_pow]
        rfl
      · rw [hvalue, BitVec.toNat_ushiftRight, Nat.shiftRight_eq_div_pow]
        rfl
  | @right ss a t n hn ha ih =>
      obtain ⟨fieldMask, valueMask, heq, hfield, hvalue⟩ :=
        ih (mask <<< n.toNat) (mask' <<< n.toNat) (shift + n.toNat) group
      refine ⟨fieldMask, valueMask, ?_, ?_, ?_⟩
      · have hshift : shift + n.toNat + rights ss - lefts ss =
            shift + rights (.right n.toNat :: ss) -
              lefts (.right n.toNat :: ss) := by
          simp only [rights, lefts, List.map_cons, List.sum_cons,
            MaskShift.Step.rights, MaskShift.Step.lefts]
          omega
        rw [FastBit.eqOperand, if_neg (Nat.not_le.mpr hn), heq, hshift]
        rfl
      · rw [hfield, BitVec.toNat_shiftLeft, Nat.shiftLeft_eq]
        rfl
      · rw [hvalue, BitVec.toNat_shiftLeft, Nat.shiftLeft_eq]
        rfl
  | @mask ss a t n ha ih =>
      obtain ⟨fieldMask, valueMask, heq, hfield, hvalue⟩ :=
        ih (mask &&& n) (mask' &&& n) shift group
      refine ⟨fieldMask, valueMask, ?_, ?_, ?_⟩
      · rw [ha.accessGroup_mask, ha.eqOperand_mask, heq]
        simp [rights, lefts, MaskShift.Step.rights, MaskShift.Step.lefts]
      · rw [hfield, BitVec.toNat_and]
        rfl
      · rw [hvalue, BitVec.toNat_and]
        rfl
  | @maskFirst ss a t n ha ih =>
      obtain ⟨fieldMask, valueMask, heq, hfield, hvalue⟩ :=
        ih (mask &&& n) (mask' &&& n) shift group
      refine ⟨fieldMask, valueMask, ?_, ?_, ?_⟩
      · rw [FastBit.eqOperand, heq]
        simp [rights, lefts, MaskShift.Step.rights, MaskShift.Step.lefts,
          accessGroup]
      · rw [hfield, BitVec.toNat_and]
        rfl
      · rw [hvalue, BitVec.toNat_and]
        rfl
  | root t g hg ha ih =>
      obtain ⟨fieldMask, valueMask, heq, hmasks⟩ := ih mask mask' shift g
      exact ⟨fieldMask, valueMask, heq, hmasks⟩

end

/-! The value. -/

/-- New nodes only. -/
structure Extends (bits bits' : Bits) : Prop where
  size : bits.size ≤ bits'.size
  keeps : ∀ a, a < bits.size → bits'.bit a = bits.bit a

variable {bits bits' : Bits}

theorem Extends.refl (bits : Bits) : Extends bits bits :=
  ⟨Nat.le_refl _, fun _ _ => rfl⟩

theorem Extends.trans {bits'' : Bits} (h : Extends bits bits')
    (h' : Extends bits' bits'') : Extends bits bits'' where
  size := Nat.le_trans h.size h'.size
  keeps a ha := (h'.keeps a (Nat.lt_of_lt_of_le ha h.size)).trans (h.keeps a ha)

/-- A pointer to a node, or the null pointer. -/
def Valid (bits : Bits) (p : Option Nat) : Prop := ∀ a, p = some a → a < bits.size

theorem Valid.extends {p : Option Nat} (h : Valid bits p) (hextends : Extends bits bits') :
    Valid bits' p := fun a ha => Nat.lt_of_lt_of_le (h a ha) hextends.size

theorem Unvisited.make (h : Unvisited true bits) (number : Number)
    {onTrue onFalse : Option Nat} (htrue : Valid bits onTrue)
    (hfalse : Valid bits onFalse) :
    Unvisited true (bits.make number onTrue onFalse) ∧
      Extends bits (bits.make number onTrue onFalse) := by
  refine ⟨⟨fun a edge b ha hb => ?_, fun a ha => ?_⟩, ⟨Nat.le_succ _, fun a ha => ?_⟩⟩
  · rcases eq_or_ne a bits.size with rfl | hne
    · rw [Bits.next, Bits.make, Bits.alloc_bit] at hb
      cases edge with
      | false => exact Nat.lt_succ_of_lt (hfalse b hb)
      | true => exact Nat.lt_succ_of_lt (htrue b hb)
    · rw [Bits.make, Bits.next_congr (Bits.alloc_bit_of_ne hne)] at hb
      have hlt := Nat.lt_of_le_of_ne (Nat.le_of_lt_succ ha) hne
      exact Nat.lt_succ_of_lt (h.bounded a edge b hlt hb)
  · rcases eq_or_ne a bits.size with rfl | hne
    · rw [Bits.mark, Bits.make, Bits.alloc_bit]
      exact Bool.false_ne_true
    · rw [Bits.make, Bits.mark_congr (Bits.alloc_bit_of_ne hne)]
      exact h.unmarked a (Nat.lt_of_le_of_ne (Nat.le_of_lt_succ ha) hne)
  · exact Bits.alloc_bit_of_ne (Nat.ne_of_lt ha)

/-- A pointer to the root of a tree of data tests and decisions. -/
structure Leads (bits : Bits) (p : Option Nat) (t : DecisionTree Number) : Prop where
  root : ∃ a, p = some a ∧ bits.Unfolds a t
  kinds : Kinds t

theorem Leads.extends {p : Option Nat} {t : DecisionTree Number} (h : Leads bits p t)
    (hunvisited : Unvisited true bits) (hvalid : Valid bits p)
    (hextends : Extends bits bits') : Leads bits' p t where
  root := by
    obtain ⟨a, ha, ht⟩ := h.root
    exact ⟨a, ha, ht.frame (hvalid a ha)
      (fun b c edge hb => hunvisited.bounded b edge c hb)
      (fun b hb => Bits.number_congr (hextends.keeps b hb))
      fun b hb => Bits.next_congr (hextends.keeps b hb)⟩
  kinds := h.kinds

theorem Leads.make {onTrue onFalse : Option Nat} {tTrue tFalse : DecisionTree Number}
    {number : Number} (htest : IsTest number) (hunvisited : Unvisited true bits)
    (hvTrue : Valid bits onTrue) (hvFalse : Valid bits onFalse)
    (htrue : Leads bits onTrue tTrue) (hfalse : Leads bits onFalse tFalse) :
    Leads (bits.make number onTrue onFalse) (some bits.size)
      (.node number fun edge => if edge then tTrue else tFalse) := by
  have hextends := (hunvisited.make number hvTrue hvFalse).2
  obtain ⟨⟨a, ha, hta⟩, -⟩ := htrue.extends hunvisited hvTrue hextends
  obtain ⟨⟨b, hb, htb⟩, -⟩ := hfalse.extends hunvisited hvFalse hextends
  have hnumber : (bits.make number onTrue onFalse).number bits.size = number := by
    rw [Bits.number, Bits.make, Bits.alloc_bit]
  have hnext : ∀ edge, (bits.make number onTrue onFalse).next bits.size edge =
      some (if edge then a else b) := by
    intro edge
    rw [Bits.next, Bits.make, Bits.alloc_bit]
    cases edge with
    | false => exact hb
    | true => exact ha
  refine ⟨⟨bits.size, rfl, ?_⟩, htest,
    Bool.forall_bool.mpr ⟨hfalse.kinds, htrue.kinds⟩⟩
  have hnode : Diagram.Unfolds (bits.make number onTrue onFalse).number _
      bits.size _ :=
    .node hnext (Bool.forall_bool.mpr ⟨htb, hta⟩ : ∀ edge : Bool,
      Diagram.Unfolds _ _ (if edge then a else b) (if edge then tTrue else tFalse))
  rwa [hnumber] at hnode

/-! Numbers of data tests. -/

/-- The bit of a packet that a number stands for. -/
def answers (packet : Packet) (n : Number) : Bool :=
  packet (n.toNat / 2 ^ 16) (n.toNat % 2 ^ 16)

section

variable {offset length : BitVec 32} {group : Nat}

/-- The bits from `i` on, `left` of them, are as they should be. -/
def Matches (packet : Packet) (offset value mask : Number) (length group i left : Nat) :
    Prop :=
  ∀ j, i ≤ j → j < i + left → mask.getLsbD j = true →
    packet group (8 * offset.toNat + (length - 1 - j)) = value.getLsbD j

instance (packet : Packet) (offset value mask : Number) (length group i left : Nat) :
    Decidable (Matches packet offset value mask length group i left) :=
  decidable_of_iff (∀ j, j < i + left → i ≤ j → mask.getLsbD j = true →
      packet group (8 * offset.toNat + (length - 1 - j)) = value.getLsbD j)
    ⟨fun h j hi hj => h j hj hi, fun h j hj hi => h j hi hj⟩

end

/-- A comparison of an access of at most 32 bits with a number that is not too
large for it. The bits are among the first 65536 of their offset group, and no
shift is by the whole width. -/
inductive DataTest : Data → Prop
  | eq {offset length : BitVec 32} {ss : List MaskShift.Step} {a : Data}
      (t : DataType) (v : BitVec 32) (ha : Access offset length ss a)
      (hlength : length.toNat ≤ 32) (hoffset : 8 * offset.toNat + 32 ≤ 2 ^ 16)
      (hr : rights ss < lefts ss + 32) (hl : lefts ss < rights ss + 32)
      (hv : v.toNat * 2 ^ rights ss < 2 ^ length.toNat * 2 ^ lefts ss) :
      DataTest (.op .eq t a (.unum v) .none)

/-- Where an evaluation goes on: at one of two trees, or in a decision. -/
def continued (classNumber : Class → Number) (answer : Number → Bool)
    (tTrue tFalse : DecisionTree Number) : Result Decision → Number
  | .truth true => tTrue.decide answer
  | .truth false => tFalse.decide answer
  | .decided d => decisionToNumber classNumber d

/-- A part of the diagram for an evaluation of which the result is `result`;
the pointers for results that it may not have need not lead anywhere. -/
structure Builds (classNumber : Class → Number) (bits : Bits)
    (onTrue onFalse : Option Nat) (bits' : Bits) (p : Option Nat)
    (mayBe : Bool → Bool) (result : Packet → Result Decision) : Prop where
  unvisited : Unvisited true bits'
  extension : Extends bits bits'
  valid : Valid bits' p
  tree : ∀ tTrue tFalse, (mayBe true = true → Leads bits onTrue tTrue) →
    (mayBe false = true → Leads bits onFalse tFalse) →
    ∃ t, Leads bits' p t ∧ ∀ packet, t.decide (answers packet) =
      continued classNumber (answers packet) tTrue tFalse (result packet)

variable (classNumber : Class → Number) (getOffsetGroup : Data → Nat → Nat)

/-- Data tests, constants and decisions, with any logical operators and field
roots around them. -/
inductive Fast : Data → Prop
  | or {t : DataType} {a b c : Data} (ha : Fast a) (hb : Fast b) :
      Fast (.op .logicalOr t a b c)
  | and {t : DataType} {a b c : Data} (ha : Fast a) (hb : Fast b) :
      Fast (.op .logicalAnd t a b c)
  | not {t : DataType} {a b c : Data} (ha : Fast a) : Fast (.op .logicalNot t a b c)
  | root {t : DataType} {a c : Data} (group : Nat) (hgroup : group < 4096)
      (ha : Fast a) : Fast (.op .fieldRoot t a (.fieldRoot group) c)
  | test {t : DataType} {a b c : Data} (h : DataTest (.op .eq t a b c)) :
      Fast (.op .eq t a b c)
  | unum (n : BitVec 32) : Fast (.unum n)
  | decision (d : Decision) : Fast (.decision d)

/-- If the value can be reached when every test may turn out either way. -/
def mayBe : Data → Bool → Bool
  | .op .logicalOr _ a b _, value =>
      if value then mayBe a true || mayBe a false && mayBe b true
      else mayBe a false && mayBe b false
  | .op .logicalAnd _ a b _, value =>
      if value then mayBe a true && mayBe b true
      else mayBe a false || mayBe a true && mayBe b false
  | .op .logicalNot _ a _ _, value => mayBe a !value
  | .op .fieldRoot _ a _ _, value => mayBe a value
  | .unum n, value => decide (n ≠ 0) == value
  | .decision _, _ => false
  | _, _ => true

theorem DataTest.mayBe {t : DataType} {a b c : Data}
    (h : DataTest (.op .eq t a b c)) (value : Bool) :
    FastBit.mayBe (.op .eq t a b c) value = true := by
  cases h
  rfl

/-- Evaluation without counters. -/
def reached (packet : Packet) : Data → Nat → Result Decision
  | .op .logicalOr _ a b _, group => (reached packet a group).or (reached packet b group)
  | .op .logicalAnd _ a b _, group =>
      (reached packet a group).and (reached packet b group)
  | .op .logicalNot _ a _ _, group => (reached packet a group).not
  | .op .fieldRoot _ a b _, group => reached packet a (b.rootOr group)
  | .decision d, _ => .decided d
  | d, group => .truth (decide (d.num packet ⟨group, 0⟩ ≠ 0))

theorem Fast.eval {d : Data} (h : Fast d) (env : Env) (group : Nat)
    (counted : List Bucket) :
    d.eval env ⟨group, 0⟩ counted = (counted, reached env.packet d group) := by
  induction h generalizing group with
  | or ha hb iha ihb =>
      rw [Data.eval_logicalOr]
      simp only [Eval.or, Eval.branch, iha, reached]
      rcases reached env.packet _ group with (_ | _) | d
      · exact ihb group
      · rfl
      · rfl
  | and ha hb iha ihb =>
      rw [Data.eval_logicalAnd]
      simp only [Eval.and, Eval.branch, iha, reached]
      rcases reached env.packet _ group with (_ | _) | d
      · rfl
      · exact ihb group
      · rfl
  | not ha ih =>
      rw [Data.eval_logicalNot]
      simp only [Eval.not, Eval.branch, ih, reached]
      rcases reached env.packet _ group with (_ | _) | d <;> rfl
  | root g hg ha ih =>
      simp only [Data.eval, reached]
      exact ih g
  | test h => cases h with | eq => rfl
  | unum n => rfl
  | decision d => rfl

section

variable {classNumber}

end

section

variable (policeNumber : Bucket → Number)

end

end Tcng.FastBit
