import Tcng.IfExt.Bits

/-! The first rule that matches has the action the expression reaches. -/

namespace Tcng.IfExt

open ShortCircuit

/-! Comparisons of packet data with constants. -/

inductive Constant : Data → U128 → Prop
  | unum (n : BitVec 32) : Constant (.unum n) (.ofBitVec32 n)
  | ipv6 (n : U128) : Constant (.ipv6 n) n

/-- An access, its masks and its field roots. -/
inductive Operand (offset length : BitVec 32) : Data → Prop
  | access (t : DataType) :
      Operand offset length
        (.op .access t .none (.unum offset) (.unum length) )
  | and {t : DataType} {a k : Data} {n : U128} (ha : Operand offset length a)
      (hk : Constant k n) : Operand offset length (.op .and t a k .none)
  | root {t : DataType} {a : Data} (ha : Operand offset length a)
      (group : Nat) :
      Operand offset length (.op .fieldRoot t a (.fieldRoot group) .none)

/-- The access is not longer than any integer and its bits have numbers. -/
structure Accessible (offset length : BitVec 32) : Prop where
  pos : length ≠ 0
  length : length.toNat ≤ 128
  offset : 8 * offset.toNat + 128 ≤ 2 ^ 31

inductive MatchTest : Data → Prop
  | left {offset length : BitVec 32} {t : DataType} {a k : Data} {n : U128}
      (haccess : Accessible offset length) (ha : Operand offset length a)
      (hk : Constant k n) (hn : n.toNat < 2 ^ length.toNat) :
      MatchTest (.op .eq t a k .none)
  | right {offset length : BitVec 32} {t : DataType} {a k : Data} {n : U128}
      (haccess : Accessible offset length) (ha : Operand offset length a)
      (hk : Constant k n) (hn : n.toNat < 2 ^ length.toNat) :
      MatchTest (.op .eq t k a .none)

theorem Constant.spec {k : Data} {n : U128} (h : Constant k n) :
    k.toIpv6 = .ok n ∧ k.isOp = false ∧ (k.type = .unum ∨ k.type = .ipv6) ∧
      ∀ packet base, k.num packet base = n.toNat := by
  cases h with
  | unum n => exact ⟨rfl, rfl, .inl rfl, fun _ _ => (U128.toNat_ofBitVec32 n).symm⟩
  | ipv6 n => exact ⟨rfl, rfl, .inr rfl, fun _ _ => rfl⟩

section

variable {offset length : BitVec 32} {a : Data}
    (getOffsetGroup : Data → Nat → Nat)

theorem Operand.isOp (h : Operand offset length a) : a.isOp = true := by
  cases h <;> rfl

theorem Operand.num_lt (h : Operand offset length a) (packet : Packet)
    (group : Nat) : a.num packet ⟨group, 0⟩ < 2 ^ length.toNat := by
  induction h generalizing group with
  | access t => exact readBits_lt _ _ _
  | and ha hk ih => exact Nat.lt_of_le_of_lt Nat.and_le_left (ih group)
  | root ha g ih => exact ih g

/-- Masks and field roots are gathered on the way to the access. -/
theorem Operand.matchOperand (h : Operand offset length a) (group : Nat)
    (mask : U128) :
    ∃ t group' mask', matchOperand getOffsetGroup a group mask =
        .ok (.op .access t .none (.unum offset) (.unum length), group', mask') ∧
      ∀ packet, a.num packet ⟨group, 0⟩ &&& mask.toNat =
        readBits (packet group') (8 * offset.toNat) length.toNat &&&
          mask'.toNat := by
  induction h generalizing group mask with
  | access t =>
      refine ⟨t, group, mask, rfl, fun packet => ?_⟩
      simp [Data.num, Data.rootOr]
  | and ha hk ih =>
      obtain ⟨hconvert, hop, htype, hnum⟩ := hk.spec
      rename_i n
      obtain ⟨t', group', mask', hok, hvalue⟩ := ih group (mask.and n)
      refine ⟨t', group', mask', ?_, fun packet => ?_⟩
      · rw [IfExt.matchOperand, hop, hconvert]
        rcases htype with htype | htype <;> rw [htype] <;> exact hok
      · rw [← hvalue packet, U128.toNat_and, Nat.and_comm mask.toNat,
          ← Nat.and_assoc, ← hnum packet ⟨group, 0⟩]
        rfl
  | root ha g ih => exact ih g mask

end

private theorem num_eq (t : DataType) (a b : Data) (packet : Packet)
    (base : Base) :
    (Data.op .eq t a b .none).num packet base ≠ 0 ↔
      a.num packet base = b.num packet base := by
  simp [Data.num, numOp, relOp]

private theorem and_ones {x n : Nat} (h : x < 2 ^ n) (hn : n ≤ 128) :
    x &&& (U128.ofBitVec32 0).not.toNat = x := by
  have hones : (U128.ofBitVec32 0).not.toNat = 2 ^ 128 - 1 := by decide
  rw [hones, Nat.and_two_pow_sub_one_eq_mod]
  exact Nat.mod_eq_of_lt (Nat.lt_of_lt_of_le h (Nat.pow_le_pow_right
    Nat.two_pos hn))

private theorem dumpMatch_left {offset length : BitVec 32} {t : DataType}
    {a k : Data} {n : U128} (haccess : Accessible offset length)
    (ha : Operand offset length a) (hk : Constant k n)
    (hn : n.toNat < 2 ^ length.toNat) (getOffsetGroup : Data → Nat → Nat)
    (group : Nat) {bits : List BitMatch} (hbits : Distinct bits) :
    ∃ result, dumpMatch getOffsetGroup (.op .eq t a k .none) group bits =
        .ok result ∧
      Adds bits (fun packet => a.num packet ⟨group, 0⟩ = n.toNat) result := by
  obtain ⟨hconvert, hop, htype, hnum⟩ := hk.spec
  obtain ⟨t', group', mask, hok, hvalue⟩ :=
    ha.matchOperand getOffsetGroup group (U128.ofBitVec32 0).not
  have hoffset : (offset * 8).toNat = 8 * offset.toNat := by
    have hfit := haccess.offset
    rw [BitVec.toNat_mul, Nat.mul_comm]
    exact Nat.mod_eq_of_lt (by
      change 8 * offset.toNat < 2 ^ 32
      omega)
  have htype' : ¬(k.type ≠ .unum ∧ k.type ≠ .ipv6) := by
    rcases htype with htype | htype <;> rw [htype] <;> decide
  refine ⟨decomposeMatch group' (offset * 8).toNat length mask n bits, ?_, ?_⟩
  · simp only [dumpMatch, ha.isOp, if_true, bind, Except.bind, if_neg htype',
      hok, Data.unumValue, if_neg haccess.pos, hconvert]
  · rw [hoffset]
    refine (decomposeMatch_adds hbits group' _ mask n haccess.length hn).congr
      fun packet => ?_
    rw [← hvalue packet, and_ones (ha.num_lt packet group) haccess.length]

/-- One comparison adds the bits it stands for. -/
theorem MatchTest.dumpMatch {d : Data} (h : MatchTest d)
    (getOffsetGroup : Data → Nat → Nat) (group : Nat) {bits : List BitMatch}
    (hbits : Distinct bits) :
    ∃ result, dumpMatch getOffsetGroup d group bits = .ok result ∧
      Adds bits (fun packet => d.num packet ⟨group, 0⟩ ≠ 0) result := by
  cases h with
  | left haccess ha hk hn =>
      rename_i t a k n
      obtain ⟨result, hok, hadds⟩ :=
        dumpMatch_left (t := t) haccess ha hk hn getOffsetGroup group hbits
      refine ⟨result, hok, hadds.congr fun packet => ?_⟩
      rw [num_eq, hk.spec.2.2.2]
  | right haccess ha hk hn =>
      rename_i t a k n
      obtain ⟨result, hok, hadds⟩ :=
        dumpMatch_left (t := t) haccess ha hk hn getOffsetGroup group hbits
      have hswap : IfExt.dumpMatch getOffsetGroup (.op .eq t k a .none) group
          bits = IfExt.dumpMatch getOffsetGroup (.op .eq t a k .none) group
            bits := by
        simp [IfExt.dumpMatch, ha.isOp, hk.spec.2.1]
      refine ⟨result, hswap.trans hok, hadds.congr fun packet => ?_⟩
      rw [num_eq, hk.spec.2.2.2, eq_comm]

/-! Chains, the alternatives in them, and which one is reached. -/

/-- Comparisons before an action tree; a field root may be around the tail. -/
inductive Row : Data → Prop
  | tree {d : Data} (h : actionTree d = true) : Row d
  | and {test tail : Data} (htest : MatchTest test) (htail : Row tail) :
      Row (.logicalAnd test tail)
  | root {t : DataType} {tail : Data} (htail : Row tail) (group : Nat) :
      Row (.op .fieldRoot t tail (.fieldRoot group) .none)

/-- An `||` chain of rows, or (`or = false`) one of its elements. -/
inductive Chain : Bool → Data → Prop
  | row {or : Bool} {d : Data} (h : Row d) : Chain or d
  | root {or : Bool} {t : DataType} {tail : Data} (htail : Chain true tail)
      (group : Nat) : Chain or (.op .fieldRoot t tail (.fieldRoot group) .none)
  | or {a b : Data} (ha : Chain false a) (hb : Chain true b) :
      Chain true (.logicalOr a b)

/-- Comparisons, each with its field root, and the action tree after them. -/
structure Alternative where
  tests : List (Nat × Data)
  tree : Data

def Alternative.holds (packet : Packet) (alt : Alternative) : Prop :=
  ∀ test ∈ alt.tests, test.2.num packet ⟨test.1, 0⟩ ≠ 0

instance (packet : Packet) (alt : Alternative) :
    Decidable (alt.holds packet) :=
  inferInstanceAs (Decidable (∀ _ ∈ _, _))

def Alternative.addTest (test : Nat × Data) (alt : Alternative) : Alternative :=
  { alt with tests := test :: alt.tests }

def alternatives (group : Nat) (d : Data) : List Alternative :=
  if actionTree d then [⟨[], d⟩]
  else
    match d with
    | .op .logicalOr _ a b _ => alternatives group a ++ alternatives group b
    | .op .logicalAnd _ a b _ =>
        (alternatives group b).map (.addTest (group, a))
    | .op .fieldRoot _ a b _ => alternatives (b.rootOr group) a
    | _ => []

/-- Short-circuit evaluation up to the first action tree. -/
def reach (packet : Packet) (group : Nat) (d : Data) : Result Data :=
  if actionTree d then .decided d
  else
    match d with
    | .op .logicalOr _ a b _ => (reach packet group a).or (reach packet group b)
    | .op .logicalAnd _ a b _ =>
        (reach packet group a).and (reach packet group b)
    | .op .fieldRoot _ a b _ => reach packet (b.rootOr group) a
    | d => .truth (decide (d.num packet ⟨group, 0⟩ ≠ 0))

theorem MatchTest.eq_cases {d : Data} (h : MatchTest d) :
    ∃ t a b, d = .op .eq t a b .none := by
  cases h <;> exact ⟨_, _, _, rfl⟩

theorem MatchTest.reach {d : Data} (h : MatchTest d) (packet : Packet)
    (group : Nat) :
    reach packet group d = .truth (decide (d.num packet ⟨group, 0⟩ ≠ 0)) := by
  obtain ⟨t, a, b, rfl⟩ := h.eq_cases
  rfl

theorem MatchTest.not_tree {d : Data} (h : MatchTest d) (b : Data) :
    actionTree (.logicalAnd d b) = false := by
  obtain ⟨t, x, y, rfl⟩ := h.eq_cases
  rfl

theorem alternatives_tree {d : Data} (h : actionTree d = true) (group : Nat) :
    alternatives group d = [⟨[], d⟩] := by
  unfold alternatives
  rw [if_pos h]

theorem reach_tree {d : Data} (h : actionTree d = true) (packet : Packet)
    (group : Nat) : IfExt.reach packet group d = .decided d := by
  unfold IfExt.reach
  rw [if_pos h]

/-- The tree of the first alternative that holds. -/
def firstTree (packet : Packet) (alts : List Alternative) : Result Data :=
  match alts.find? fun alt => alt.holds packet with
  | some alt => .decided alt.tree
  | none => .truth false

theorem firstTree_append (packet : Packet) (as bs : List Alternative) :
    firstTree packet (as ++ bs) =
      (firstTree packet as).or (firstTree packet bs) := by
  unfold firstTree
  rw [List.find?_append]
  cases as.find? fun alt => alt.holds packet <;> rfl

theorem firstTree_addTest (packet : Packet) (group : Nat) (test : Data)
    (alts : List Alternative) :
    firstTree packet (alts.map (.addTest (group, test))) =
      (Result.truth (decide (test.num packet ⟨group, 0⟩ ≠ 0))).and
        (firstTree packet alts) := by
  have hholds : ∀ alt : Alternative, (alt.addTest (group, test)).holds packet ↔
      test.num packet ⟨group, 0⟩ ≠ 0 ∧ alt.holds packet :=
    fun alt => List.forall_mem_cons
  unfold firstTree
  rw [List.find?_map]
  cases htest : decide (test.num packet ⟨group, 0⟩ ≠ 0) with
  | true =>
      have hsame : ((fun alt => decide (Alternative.holds packet alt)) ∘
          Alternative.addTest (group, test)) =
          fun alt => decide (alt.holds packet) := by
        funext alt
        simp [hholds, of_decide_eq_true htest]
      rw [hsame]
      cases alts.find? fun alt => alt.holds packet <;> rfl
  | false =>
      have hnone : alts.find? ((fun alt => decide (alt.holds packet)) ∘
          Alternative.addTest (group, test)) = none := by
        rw [List.find?_eq_none]
        intro alt _
        simp [hholds, of_decide_eq_false htest]
      rw [hnone]
      rfl

theorem Row.reach {d : Data} (h : Row d) (packet : Packet) (group : Nat) :
    IfExt.reach packet group d = firstTree packet (alternatives group d) := by
  induction h generalizing group with
  | tree h =>
      rw [reach_tree h, alternatives_tree h]
      rfl
  | and htest htail ih =>
      unfold IfExt.reach alternatives
      rw [htest.not_tree]
      simp only [Bool.false_eq_true, if_false]
      rw [htest.reach, ih, firstTree_addTest]
  | root htail g ih => exact ih g

theorem Chain.reach {or : Bool} {d : Data} (h : Chain or d) (packet : Packet)
    (group : Nat) :
    IfExt.reach packet group d = firstTree packet (alternatives group d) := by
  induction h generalizing group with
  | row h => exact h.reach packet group
  | root htail g ih => exact ih g
  | or ha hb iha ihb =>
      rename_i a b
      cases htree : actionTree (.logicalOr a b) with
      | true =>
          rw [reach_tree htree, alternatives_tree htree]
          rfl
      | false =>
          unfold IfExt.reach alternatives
          rw [htree]
          simp only [Bool.false_eq_true, if_false]
          rw [firstTree_append, iha, ihb]

/-! What is printed for a row, and for a chain. -/

def Rule.holds (packet : Packet) (r : Rule) : Prop :=
  ∀ m ∈ r.tests, m.holds packet

instance (packet : Packet) (r : Rule) : Decidable (r.holds packet) :=
  inferInstanceAs (Decidable (∀ _ ∈ _, _))

/-- A rule for what is left of an alternative after the given bits, if any
packet can get there. -/
inductive RowPrinted (bits : List BitMatch) (alt : Alternative) :
    List Rule → Prop
  | rule {r : Rule} (haction : treeAction alt.tree = .ok r.action)
      (hholds : ∀ packet, r.holds packet ↔
        Holds packet bits ∧ alt.holds packet)
      (hsat : ∃ packet, Holds packet bits ∧ alt.holds packet) :
      RowPrinted bits alt [r]
  | skip (hunsat : ∀ packet, Holds packet bits → ¬alt.holds packet) :
      RowPrinted bits alt []

/-- One rule for each alternative a packet can satisfy, in order. -/
inductive Printed : List Alternative → List Rule → Prop
  | nil : Printed [] []
  | rule {alt : Alternative} {alts : List Alternative} {r : Rule}
      {rules : List Rule} (haction : treeAction alt.tree = .ok r.action)
      (hholds : ∀ packet, r.holds packet ↔ alt.holds packet)
      (hsat : ∃ packet, alt.holds packet) (htail : Printed alts rules) :
      Printed (alt :: alts) (r :: rules)
  | skip {alt : Alternative} {alts : List Alternative} {rules : List Rule}
      (hunsat : ∀ packet, ¬alt.holds packet) (htail : Printed alts rules) :
      Printed (alt :: alts) rules

theorem Printed.append {as bs : List Alternative} {rs ss : List Rule}
    (has : Printed as rs) (hbs : Printed bs ss) :
    Printed (as ++ bs) (rs ++ ss) := by
  induction has with
  | nil => exact hbs
  | rule haction hholds hsat _ ih => exact .rule haction hholds hsat ih
  | skip hunsat _ ih => exact .skip hunsat ih

theorem RowPrinted.printed {alt : Alternative} {rules : List Rule}
    (h : RowPrinted [] alt rules) : Printed [alt] rules := by
  have hempty : ∀ packet, Holds packet [] := fun packet b hb => nomatch hb
  cases h with
  | rule haction hholds hsat =>
      obtain ⟨packet, _, hpacket⟩ := hsat
      exact .rule haction
        (fun packet => (hholds packet).trans (and_iff_right (hempty packet)))
        ⟨packet, hpacket⟩ .nil
  | skip hunsat => exact .skip (fun packet => hunsat packet (hempty packet)) .nil

/-- The first rule that matches is the one of the first alternative that
holds. -/
theorem Printed.first {alts : List Alternative} {rules : List Rule}
    (h : Printed alts rules) (packet : Packet) :
    (rules.find? fun r => r.holds packet).map
        (fun r => Except.ok (ε := Error) r.action) =
      match firstTree packet alts with
      | .decided tree => some (treeAction tree)
      | .truth _ => none := by
  unfold firstTree
  induction h with
  | nil => rfl
  | rule haction hholds hsat htail ih =>
      rename_i alt alts r rules
      have hsame : decide (alt.holds packet) = decide (r.holds packet) :=
        decide_eq_decide.mpr (hholds packet).symm
      rw [List.find?_cons, List.find?_cons, hsame]
      cases decide (r.holds packet) with
      | true => simp [haction]
      | false => exact ih
  | skip hunsat _ ih =>
      rw [List.find?_cons, decide_eq_false (hunsat packet)]
      exact ih

section

variable (getOffsetGroup : Data → Nat → Nat)

private theorem dumpOther_tree {d : Data} (h : actionTree d = true)
    (group : Nat) (out : Output) :
    dumpOther getOffsetGroup d group out =
      (dumpAction d out).map fun out => (true, out) := by
  unfold dumpOther
  split
  · cases h
  · rw [if_pos h]
    cases dumpAction d out <;> rfl

private theorem dumpAnd_tree {d : Data} (h : actionTree d = true)
    (group : Nat) (out : Output) :
    dumpAnd getOffsetGroup d group out =
      (dumpAction d out).map fun out => (true, out) := by
  rw [← dumpOther_tree getOffsetGroup h group]
  unfold dumpAnd
  split
  · rw [if_pos h]
  · rfl

private theorem dumpAnd_test {test tail : Data} (h : MatchTest test)
    (group : Nat) (out : Output) {ok : Bool} {bits : List BitMatch}
    (hok : IfExt.dumpMatch getOffsetGroup test group out.bits =
      .ok (ok, bits)) :
    dumpAnd getOffsetGroup (.logicalAnd test tail) group out =
      if ok then dumpAnd getOffsetGroup tail group ⟨bits, out.rules⟩
      else .ok (false, ⟨[], out.rules⟩) := by
  have htree := h.not_tree tail
  obtain ⟨t, a, b, rfl⟩ := h.eq_cases
  rw [dumpAnd, htree, dumpOther, hok]
  rfl

private theorem dumpAnd_root (t : DataType) (tail : Data) (g group : Nat)
    (out : Output) :
    dumpAnd getOffsetGroup (.op .fieldRoot t tail (.fieldRoot g) .none) group
      out = dumpOr getOffsetGroup tail g out := by
  rw [dumpAnd, dumpOther]
  · rfl
  all_goals simp

private theorem dumpOr_and {d : Data}
    (h : actionTree d = true ∨ ∀ t a b c, d ≠ .op .logicalOr t a b c)
    (group : Nat) (out : Output) :
    dumpOr getOffsetGroup d group out =
      (dumpAnd getOffsetGroup d group out).map fun result =>
        (true, result.2) := by
  unfold dumpOr
  split
  · have htree := h.resolve_right fun h => h _ _ _ _ rfl
    rw [if_pos htree]
    cases dumpAnd getOffsetGroup _ group out <;> rfl
  · cases dumpAnd getOffsetGroup d group out <;> rfl

/-- The trees of a chain have actions. -/
def Registered (group : Nat) (d : Data) : Prop :=
  ∀ alt ∈ alternatives group d, ∃ action, treeAction alt.tree = .ok action

theorem Row.single {d : Data} (h : Row d) (group : Nat) :
    ∃ alt, alternatives group d = [alt] := by
  induction h generalizing group with
  | tree h => exact ⟨_, alternatives_tree h group⟩
  | and htest htail ih =>
      rename_i test tail
      obtain ⟨alt, halt⟩ := ih group
      refine ⟨alt.addTest (group, test), ?_⟩
      rw [alternatives, htest.not_tree]
      simp only [Bool.false_eq_true, if_false, halt]
      rfl
  | root htail g ih => exact ih g

private theorem Row.tree_or {d : Data} (h : Row d) :
    actionTree d = true ∨ ∀ t a b c, d ≠ .op .logicalOr t a b c := by
  cases h with
  | tree h => exact .inl h
  | _ => exact .inr fun _ _ _ _ h => nomatch h

/-- After a row no bits are left, whether it has a rule or not. -/
theorem Row.dumpAnd {d : Data} (h : Row d) (group : Nat)
    (hreg : Registered group d) (out : Output) (hbits : Distinct out.bits) :
    ∃ alt ok rules, alternatives group d = [alt] ∧
      dumpAnd getOffsetGroup d group out = .ok (ok, ⟨[], out.rules ++ rules⟩) ∧
      RowPrinted out.bits alt rules := by
  induction h generalizing group out with
  | tree h =>
      rename_i d
      have halts := alternatives_tree h group
      have hmem : (⟨[], d⟩ : Alternative) ∈ alternatives group d :=
        halts ▸ List.mem_singleton_self _
      obtain ⟨action, haction⟩ := hreg _ hmem
      have htrue : ∀ packet, (⟨[], d⟩ : Alternative).holds packet :=
        fun packet test htest => nomatch htest
      refine ⟨_, true, [⟨collectBits (sortBits out.bits), action⟩], halts, ?_,
        .rule haction (fun packet => ?_) ?_⟩
      · rw [dumpAnd_tree getOffsetGroup h]
        simp only [dumpAction, haction]
        rfl
      · rw [and_iff_left (htrue packet), ← holds_sortBits]
        exact holds_collectBits packet _
      · obtain ⟨packet, hpacket⟩ := hbits.satisfiable
        exact ⟨packet, hpacket, htrue packet⟩
  | and htest htail ih =>
      rename_i test tail
      obtain ⟨⟨ok, bits⟩, hok, hadds⟩ :=
        htest.dumpMatch getOffsetGroup group hbits
      have halts : alternatives group (.logicalAnd test tail) =
          (alternatives group tail).map (.addTest (group, test)) := by
        rw [alternatives, htest.not_tree]
        rfl
      have hreg' : Registered group tail := by
        intro alt halt
        exact hreg (alt.addTest (group, test))
          (halts ▸ List.mem_map_of_mem halt)
      have hsplit : ∀ (alt : Alternative) (packet : Packet),
          (alt.addTest (group, test)).holds packet ↔
            test.num packet ⟨group, 0⟩ ≠ 0 ∧ alt.holds packet :=
        fun alt packet => List.forall_mem_cons
      rw [dumpAnd_test getOffsetGroup htest group out hok, halts]
      cases ok with
      | true =>
          obtain ⟨alt, ok, rules, halt, hdump, hprinted⟩ :=
            ih group hreg' ⟨bits, out.rules⟩ hadds.1
          refine ⟨_, ok, rules, by rw [halt]; rfl, hdump, ?_⟩
          cases hprinted with
          | rule haction hholds hsat =>
              refine .rule haction (fun packet => ?_) ?_
              · rw [hholds, hadds.2, hsplit, and_assoc]
              · obtain ⟨packet, hpacket, halt⟩ := hsat
                obtain ⟨hfirst, htest⟩ := (hadds.2 packet).mp hpacket
                exact ⟨packet, hfirst, (hsplit alt packet).mpr ⟨htest, halt⟩⟩
          | skip hunsat =>
              refine .skip fun packet hpacket halt => ?_
              obtain ⟨htest, halt⟩ := (hsplit alt packet).mp halt
              exact hunsat packet ((hadds.2 packet).mpr ⟨hpacket, htest⟩) halt
      | false =>
          obtain ⟨alt, halt⟩ := htail.single group
          refine ⟨_, false, [], by rw [halt]; rfl, ?_, .skip ?_⟩
          · rw [List.append_nil]
            rfl
          · intro packet hpacket hholds
            exact hadds packet hpacket ((hsplit alt packet).mp hholds).1
  | root htail g ih =>
      rename_i t tail
      obtain ⟨alt, ok, rules, halt, hdump, hprinted⟩ := ih g hreg out hbits
      refine ⟨alt, true, rules, halt, ?_, hprinted⟩
      rw [dumpAnd_root, dumpOr_and getOffsetGroup htail.tree_or, hdump]
      rfl

/-- No bits are left between the elements of a chain. -/
theorem Chain.dumpOr {or : Bool} {d : Data} (h : Chain or d) (group : Nat)
    (hreg : Registered group d) (before : List Rule) :
    ∃ rules, Printed (alternatives group d) rules ∧
      (∃ ok, dumpOr getOffsetGroup d group ⟨[], before⟩ =
        .ok (ok, ⟨[], before ++ rules⟩)) ∧
      (or = false → ∃ ok, dumpAnd getOffsetGroup d group ⟨[], before⟩ =
        .ok (ok, ⟨[], before ++ rules⟩)) := by
  induction h generalizing group before with
  | row h =>
      obtain ⟨alt, ok, rules, halt, hdump, hprinted⟩ :=
        h.dumpAnd getOffsetGroup group hreg ⟨[], before⟩ .nil
      refine ⟨rules, halt ▸ hprinted.printed, ⟨true, ?_⟩, fun _ => ⟨ok, hdump⟩⟩
      rw [dumpOr_and getOffsetGroup h.tree_or, hdump]
      rfl
  | root htail g ih =>
      rename_i or t tail
      obtain ⟨rules, hprinted, ⟨ok, hdump⟩, -⟩ := ih g hreg before
      have hand := (dumpAnd_root getOffsetGroup t tail g group
        ⟨[], before⟩).trans hdump
      have hne : ∀ t' a b c, Data.op .fieldRoot t tail (.fieldRoot g) .none ≠
          .op .logicalOr t' a b c := fun _ _ _ _ h => nomatch h
      refine ⟨rules, hprinted, ⟨true, ?_⟩, fun _ => ⟨ok, hand⟩⟩
      rw [dumpOr_and getOffsetGroup (.inr hne), hand]
      rfl
  | or ha hb iha ihb =>
      rename_i a b
      cases htree : actionTree (.logicalOr a b) with
      | true =>
          obtain ⟨alt, ok, rules, halt, hdump, hprinted⟩ :=
            (Row.tree htree).dumpAnd getOffsetGroup group hreg ⟨[], before⟩ .nil
          refine ⟨rules, halt ▸ hprinted.printed, ⟨true, ?_⟩, fun h => nomatch h⟩
          rw [dumpOr_and getOffsetGroup (.inl htree), hdump]
          rfl
      | false =>
          have halts : alternatives group (.logicalOr a b) =
              alternatives group a ++ alternatives group b := by
            rw [alternatives, htree]
            rfl
          obtain ⟨rulesa, hprinteda, -, handa⟩ := iha group
            (fun alt halt => hreg alt (halts ▸ List.mem_append_left _ halt))
            before
          obtain ⟨oka, hdumpa⟩ := handa rfl
          obtain ⟨rulesb, hprintedb, ⟨okb, hdumpb⟩, -⟩ := ihb group
            (fun alt halt => hreg alt (halts ▸ List.mem_append_right _ halt))
            (before ++ rulesa)
          refine ⟨rulesa ++ rulesb, halts ▸ hprinteda.append hprintedb,
            ⟨okb, ?_⟩, fun h => nomatch h⟩
          rw [IfExt.dumpOr, htree, hdumpa]
          rw [List.append_assoc] at hdumpb
          exact hdumpb

end

private theorem treeAction_of_register {toDecision : Class → Nat} {d : Data}
    {db db' : ActionDb} (h : db.registerActions toDecision d = .ok db') :
    ∃ action, treeAction d = .ok action := by
  unfold ActionDb.registerActions at h
  cases hadd : addActions d .none .none with
  | error e =>
      rw [hadd] at h
      cases h
  | ok action => exact ⟨_, by rw [treeAction, hadd]; rfl⟩

/-- `dump_actions` goes through all the trees that get a rule. -/
theorem registered_of_dumpActions {toDecision : Class → Nat} {d : Data}
    {db db' : ActionDb} (h : dumpActions toDecision d db = .ok db')
    (group : Nat) : Registered group d := by
  intro alt halt
  induction d generalizing db db' group alt with
  | op dsc t a b c iha ihb ihc =>
      unfold dumpActions at h
      unfold alternatives at halt
      cases htree : actionTree (.op dsc t a b c) with
      | true =>
          rw [if_pos htree] at h halt
          rw [List.mem_singleton.mp halt]
          exact treeAction_of_register h
      | false =>
          simp only [htree, Bool.false_eq_true, if_false] at h halt
          obtain ⟨dba, ha, h⟩ := bind_eq_ok.mp h
          obtain ⟨dbb, hb, hc⟩ := bind_eq_ok.mp h
          cases dsc
          case logicalOr =>
            rcases List.mem_append.mp halt with halt | halt
            · exact iha ha group alt halt
            · exact ihb hb group alt halt
          case logicalAnd =>
            obtain ⟨alt', halt', rfl⟩ := List.mem_map.mp halt
            exact ihb hb group alt' halt'
          case fieldRoot => exact iha ha _ alt halt
          all_goals cases halt
  | _ =>
      unfold dumpActions at h
      unfold alternatives at halt
      split at halt
      · rename_i htree
        rw [if_pos htree] at h
        rw [List.mem_singleton.mp halt]
        exact treeAction_of_register h
      · cases halt

/-- For accesses in the range of bit numbers, the first rule a packet matches
has the action of the tree the expression reaches; the rules are those of the
chains a packet can satisfy, each with the tests of its own chain. -/
theorem dumpRules_first {d : Data} (h : Chain true d)
    {toDecision : Class → Nat} {db db' : ActionDb}
    (hreg : dumpActions toDecision d db = .ok db')
    (getOffsetGroup : Data → Nat → Nat) :
    ∃ rules, dumpRules getOffsetGroup d = .ok rules ∧
      (∀ packet, (rules.find? fun r => r.holds packet).map
          (fun r => Except.ok (ε := Error) r.action) =
        match reach packet 0 d with
        | .decided tree => some (treeAction tree)
        | .truth _ => none) ∧
      Printed (alternatives 0 d) rules := by
  obtain ⟨rules, hprinted, ⟨ok, hdump⟩, -⟩ :=
    h.dumpOr getOffsetGroup 0 (registered_of_dumpActions hreg 0) []
  refine ⟨rules, ?_, fun packet => ?_, hprinted⟩
  · rw [dumpRules, hdump]
    rfl
  · rw [h.reach]
    exact hprinted.first packet

/-- `raw[offset] == value && drop` -/
private def byteChain (offset value : BitVec 32) : Data :=
  .logicalAnd
    (.eq (.op .access .unum .none (.unum offset) (.unum 8)) (.unum value))
    (.decision .drDrop)

theorem dumpRules_first_one_byte :
    ∃ rules, dumpRules (fun _ group => group) (byteChain 9 6) = .ok rules ∧
      (∀ packet, (rules.find? fun r => r.holds packet).map
          (fun r => Except.ok (ε := Error) r.action) =
        match reach packet 0 (byteChain 9 6) with
        | .decided tree => some (treeAction tree)
        | .truth _ => none) ∧
      Printed (alternatives 0 (byteChain 9 6)) rules := by
  have hchain : Chain true (byteChain 9 6) :=
    .row (.and (.left ⟨by decide, by decide, by decide⟩ (.access .unum)
      (.unum 6) (by decide)) (.tree rfl))
  have hadd : addActions (.decision .drDrop) .none .none = .ok .drop := by
    rw [addActions]
    rfl
  obtain ⟨db, hreg⟩ : ∃ db, dumpActions id (byteChain 9 6) .empty = .ok db := by
    simp [dumpActions, byteChain, actionTree, ActionDb.registerActions, hadd,
      bind, Except.bind]
  exact dumpRules_first hchain hreg _

/-- The number of the first bit does not fit 32 bits: byte 0 is tested in the
place of byte 2^29. -/
theorem dumpRules_wraps :
    dumpRules (fun _ group => group) (byteChain 0x20000000 1) =
      .ok [⟨[⟨0, 0, 8, [0, 1]⟩], .drop⟩] ∧
    (⟨[⟨0, 0, 8, [0, 1]⟩], .drop⟩ : Rule).holds (fun _ bit => bit == 7) ∧
    reach (fun _ bit => bit == 7) 0 (byteChain 0x20000000 1) =
      .truth false := by
  have hmatch : dumpMatch (fun _ group => group)
      (.eq (.op .access .unum .none (.unum 0x20000000) (.unum 8)) (.unum 1))
        0 [] = .ok (true, (List.range 8).map fun i => ⟨0, i, i == 7⟩) := by
    decide
  have hadd : addActions (.decision .drDrop) .none .none = .ok .drop := by
    rw [addActions]
    rfl
  have hcollect : collectBits
      (sortBits ((List.range 8).map fun i => ⟨0, i, i == 7⟩)) =
        [⟨0, 0, 8, [0, 1]⟩] := by
    have hrange : List.range 8 = [0, 1, 2, 3, 4, 5, 6, 7] := rfl
    simp [hrange, sortBits, sortAgainst, collectBits, scanBits, nibbles]
  refine ⟨?_, by decide, by decide⟩
  have hne : ∀ t a b c, byteChain 0x20000000 1 ≠ .op .logicalOr t a b c := by
    rintro _ _ _ _ ⟨⟩
  rw [dumpRules, dumpOr_and _ (.inr hne), byteChain, dumpAnd, dumpOther, hmatch]
  simp only [actionTree, Bool.false_and, Bool.false_eq_true, if_false,
    bind, Except.bind, if_true]
  rw [dumpAnd_tree _ rfl, dumpAction, treeAction, hadd]
  simp only [bind, Except.bind, hcollect]
  rfl

end Tcng.IfExt
