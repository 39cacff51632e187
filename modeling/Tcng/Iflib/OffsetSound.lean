import Tcng.IfExt.OffsetGroupsSound
import Tcng.Iflib.Offset

/-! Explicit offset operators decide as the accesses they are made of. -/

namespace Tcng

open IfExt

variable {env : Env} {base base' : Base} {dsc : OpDsc} {t t' : DataType}
  {a b c a' b' c' d d' e : Data}

/-- Operators that say where an access is. -/
def OpDsc.locates : OpDsc → Bool
  | .access | .offset | .fieldRoot => true
  | _ => false

/-- An access, where operators locate it. -/
inductive Located : Data → Prop
  | access {t : DataType} {a b c : Data} : Located (.op .access t a b c)
  | offset {t : DataType} {a b c : Data} (ha : Located a) :
      Located (.op .offset t a b c)
  | fieldRoot {t : DataType} {a b c : Data} (ha : Located a) :
      Located (.op .fieldRoot t a b c)

namespace Located

theorem ne_police (h : Located d) (p : Bucket) : d ≠ .police p := by
  induction h with
  | access | offset | fieldRoot => exact Data.noConfusion

theorem eval_eq (h : Located d) (env : Env) (base : Base) :
    d.eval env base = .truth (decide (d.num env.packet base ≠ 0)) := by
  induction h generalizing base with
  | access => rfl
  | offset _ ih => rw [Data.eval, Data.num, ih]
  | fieldRoot _ ih => rw [Data.eval, Data.num, ih]

end Located

/-! ## Equal operands -/

/-- Two expressions, each at a base of its own, are worth the same. -/
structure SameAt (env : Env) (base base' : Base) (d d' : Data) : Prop where
  width : d'.width = d.width
  police : ∀ p, d' = .police p ↔ d = .police p
  num : d'.num env.packet base' = d.num env.packet base
  eval : d'.eval env base' = d.eval env base

namespace SameAt

theorem leaf (hop : d.isOp = false) : SameAt env base base' d d := by
  cases d with
  | op => cases hop
  | _ => exact ⟨rfl, fun _ => Iff.rfl, rfl, rfl⟩

theorem trans {base'' : Base} (h : SameAt env base base' d d')
    (h' : SameAt env base' base'' d' e) : SameAt env base base'' d e where
  width := h'.width.trans h.width
  police := fun p => (h'.police p).trans (h.police p)
  num := h'.num.trans h.num
  eval := h'.eval.trans h.eval

private theorem num_op (hdsc : dsc.locates = false)
    (ha : SameAt env base base' a a') (hb : SameAt env base base' b b') :
    (Data.op dsc t' a' b' c').num env.packet base' =
      (Data.op dsc t a b c).num env.packet base := by
  cases dsc
  case access | offset | fieldRoot => cases hdsc
  all_goals simp only [Data.num, ha.num, hb.num, ha.width, hb.width]

theorem op (hdsc : dsc.locates = false) (ha : SameAt env base base' a a')
    (hb : SameAt env base base' b b') :
    SameAt env base base' (.op dsc t a b c) (.op dsc t' a' b' c') where
  width := by
    cases dsc
    case access | offset | fieldRoot => cases hdsc
    all_goals simp only [Data.width, ha.width, hb.width]
  police := fun p => iff_of_false Data.noConfusion Data.noConfusion
  num := num_op hdsc ha hb
  eval := by
    have hnum : (Data.op dsc t' a' b' c').num env.packet base' =
        (Data.op dsc t a b c).num env.packet base := num_op hdsc ha hb
    cases dsc
    case access | offset | fieldRoot => cases hdsc
    case conform | count =>
      cases a with
      | police p =>
          obtain rfl := (ha.police p).mpr rfl
          simp only [Data.eval]
      | _ =>
          cases a' with
          | police p => exact Data.noConfusion ((ha.police p).mp rfl)
          | _ => simp only [Data.eval, hnum]
    all_goals simp only [Data.eval, ha.eval, hb.eval, hnum]

/-- Nothing but an access below operators that locate it. -/
theorem located (hd : Located d) (hd' : Located d')
    (hwidth : d'.width = d.width)
    (hnum : d'.num env.packet base' = d.num env.packet base) :
    SameAt env base base' d d' where
  width := hwidth
  police := fun p => iff_of_false (hd'.ne_police p) (hd.ne_police p)
  num := hnum
  eval := by rw [hd.eval_eq, hd'.eval_eq, hnum]

end SameAt

/-! ## Accesses and their indices -/

/-- Accesses are at an index behind a field root. -/
inductive Expanded : Data → Prop
  | leaf {d : Data} (hop : d.isOp = false) (hroot : d.type ≠ .fieldRoot) :
      Expanded d
  | access {t : DataType} {b : Data} (root : Nat) (n : BitVec 32)
      (hb : Expanded b) (htype : b.type = .unum) :
      Expanded (.op .access t (.fieldRoot root) b (.unum n))
  | op {dsc : OpDsc} {t : DataType} {a b c : Data}
      (hdsc : dsc.locates = false) (ha : Expanded a) (hb : Expanded b)
      (hc : Expanded c) : Expanded (.op dsc t a b c)

/-- An index that is not constant is that of an offset operator. -/
inductive OffsetUsed : Data → Prop
  | leaf {d : Data} (hop : d.isOp = false) (hroot : d.type ≠ .fieldRoot) :
      OffsetUsed d
  | access (t : DataType) (root : Nat) (m n : BitVec 32) :
      OffsetUsed (.op .access t (.fieldRoot root) (.unum m) (.unum n))
  | offset (t t' : DataType) (root : Nat) (n : BitVec 32) {b : Data}
      (hb : OffsetUsed b) :
      OffsetUsed (.op .offset t
        (.op .access t' (.fieldRoot root) (.unum 0) (.unum n)) b .none)
  | op {dsc : OpDsc} {t : DataType} {a b c : Data}
      (hdsc : dsc.locates = false) (ha : OffsetUsed a) (hb : OffsetUsed b)
      (hc : OffsetUsed c) : OffsetUsed (.op dsc t a b c)

private theorem useOffset_op (hdsc : dsc.locates = false)
    (ha : useOffset a = .ok a') (hb : useOffset b = .ok b')
    (hc : useOffset c = .ok c') :
    useOffset (.op dsc t a b c) = .ok (.op dsc t a' b' c') := by
  cases dsc
  case access => cases hdsc
  all_goals
    rw [useOffset, ha, hb, hc]
    · rfl
    · exact OpDsc.noConfusion

theorem useOffset_spec (hd : Expanded d) : ∃ d', useOffset d = .ok d' ∧
    OffsetUsed d' ∧ ∀ env base, SameAt env base base d d' := by
  induction hd with
  | @leaf d hop hroot =>
      refine ⟨d, ?_, .leaf hop hroot, fun _ _ => .leaf hop⟩
      cases d with
      | op => cases hop
      | _ => rfl
  | @access t b root n hb htype ih =>
      obtain ⟨b', hb', hused, hsame⟩ := ih
      cases hop : b.isOp with
      | true =>
          refine ⟨_, ?_, .offset t t root n hused, fun env base => ?_⟩
          · have hroot : (Data.fieldRoot root).type = .fieldRoot := rfl
            simp only [useOffset, hroot, htype, hop, hb', ne_eq,
              not_true_eq_false, if_false, if_true]
            rfl
          · have hzero : BitVec.toNat (0 : BitVec 32) = 0 := rfl
            refine .located .access (.offset .access) rfl ?_
            simp only [Data.num, Data.rootOr, (hsame env base).num, hzero,
              Nat.mul_zero, Nat.add_zero]
      | false =>
          obtain ⟨m, rfl⟩ : ∃ m, b = .unum m := by
            cases b with
            | unum m => exact ⟨m, rfl⟩
            | op => cases hop
            | _ => cases htype
          exact ⟨_, rfl, .access t root m n, fun _ _ =>
            ⟨rfl, fun _ => Iff.rfl, rfl, rfl⟩⟩
  | @op dsc t a b c hdsc _ _ _ iha ihb ihc =>
      obtain ⟨a', ha', haused, hasame⟩ := iha
      obtain ⟨b', hb', hbused, hbsame⟩ := ihb
      obtain ⟨c', hc', hcused, hcsame⟩ := ihc
      exact ⟨_, useOffset_op hdsc ha' hb' hc', .op hdsc haused hbused hcused,
        fun env base => .op hdsc (hasame env base) (hbsame env base)⟩

/-! ## Field roots -/

/-- Accesses are at constant indices, and indices of offset operators are those
of accesses. -/
inductive Rooted : Data → Prop
  | leaf {d : Data} (hop : d.isOp = false) (hroot : d.type ≠ .fieldRoot) :
      Rooted d
  | access (t : DataType) (m n : BitVec 32) :
      Rooted (.op .access t .none (.unum m) (.unum n))
  | offset (t t' : DataType) (m n : BitVec 32) {b : Data} (hb : Rooted b) :
      Rooted (.op .offset t (.op .access t' .none (.unum m) (.unum n)) b .none)
  | fieldRoot (t : DataType) {a : Data} (root : Nat) (hop : a.isOp = true)
      (ha : Rooted a) : Rooted (.op .fieldRoot t a (.fieldRoot root) .none)
  | op {dsc : OpDsc} {t : DataType} {a b c : Data}
      (hdsc : dsc.locates = false) (ha : Rooted a) (hb : Rooted b)
      (hc : Rooted c) : Rooted (.op dsc t a b c)

/-- Behind this field root, `d'` is worth what `d` is worth anywhere. -/
structure Behind (env : Env) (r : Nat) (d d' : Data) : Prop where
  rooted : Rooted d'
  same : ∀ root, SameAt env ⟨root, 0⟩ ⟨r, 0⟩ d d'

theorem Behind.op {r : Nat} (hdsc : dsc.locates = false)
    (ha : Behind env r a a') (hb : Behind env r b b') (hc : Behind env r c c') :
    Behind env r (.op dsc t a b c) (.op dsc t a' b' c') where
  rooted := .op hdsc ha.rooted hb.rooted hc.rooted
  same := fun root => .op hdsc (ha.same root) (hb.same root)

/-- All accesses of `d'` have roots of their own. -/
def RootsBubbled (env : Env) (d d' : Data) : Prop := ∀ r, Behind env r d d'

theorem Behind.fieldRootOf {r : Nat} (h : Behind env r d d')
    (hop : d'.isOp = true) : RootsBubbled env d (fieldRootOf d' r) := by
  refine fun r' => ⟨.fieldRoot _ r hop h.rooted, fun root => ?_⟩
  have hsame := h.same root
  refine ⟨hsame.width, fun p => iff_of_false Data.noConfusion fun hd => ?_,
    hsame.num, hsame.eval⟩
  rw [(hsame.police p).mpr hd] at hop
  cases hop

theorem pullRoot_eq (h : rootOf d = none) : pullRoot d = d := by
  cases d with
  | op dsc =>
      cases dsc
      case fieldRoot => cases h
      all_goals rfl
  | _ => rfl

theorem haveOffset_of_rootOf {root : Nat} (h : rootOf d = some root) :
    haveOffset d = true := by
  cases d with
  | op dsc =>
      cases dsc
      case fieldRoot => rfl
      all_goals cases h
  | _ => cases h

/-- The root that is common from now on is that of `d`, where `d` has one. -/
theorem haveCommonRoot_true {common common' : Option Nat}
    (h : haveCommonRoot d common = (true, common')) :
    (∀ r, rootOf d = some r → common' = some r) ∧
      ∀ r, common = some r → common' = some r := by
  unfold haveCommonRoot at h
  cases hoffset : haveOffset d with
  | false =>
      rw [hoffset] at h
      cases h
      refine ⟨fun r hr => ?_, fun r hr => hr⟩
      rw [haveOffset_of_rootOf hr] at hoffset
      cases hoffset
  | true =>
      rw [hoffset] at h
      cases hroot : rootOf d with
      | none =>
          rw [hroot] at h
          cases h
      | some root =>
          rw [hroot] at h
          cases common with
          | none =>
              cases h
              exact ⟨fun r hr => hr, fun r hr => by cases hr⟩
          | some common =>
              obtain ⟨heq, rfl⟩ := Prod.mk.inj h
              obtain rfl := beq_iff_eq.mp heq
              exact ⟨fun r hr => hr, fun r hr => hr⟩

theorem haveCommonRoot_false {common common' : Option Nat}
    (h : haveCommonRoot d common = (false, common')) : common' = common := by
  unfold haveCommonRoot at h
  split at h
  · cases h
  · split at h
    · exact (congrArg Prod.snd h).symm
    · exact (congrArg Prod.snd h).symm
    · cases congrArg Prod.fst h

theorem Rooted.of_rootOf {root : Nat} (hd : Rooted d)
    (h : rootOf d = some root) :
    ∃ t a, d = .op .fieldRoot t a (.fieldRoot root) .none ∧ a.isOp = true ∧
      Rooted a := by
  cases hd with
  | @fieldRoot t a r hop ha =>
      cases h
      exact ⟨t, a, rfl, hop, ha⟩
  | @op dsc _ _ _ _ hdsc =>
      cases dsc
      case fieldRoot => cases hdsc
      all_goals cases h
  | @leaf d hop =>
      cases d with
      | op => cases hop
      | _ => cases h
  | access | offset => cases h

theorem RootsBubbled.pull {r : Nat} (h : RootsBubbled env d d')
    (hroot : ∀ root, rootOf d' = some root → root = r) :
    Behind env r d (pullRoot d') := by
  cases hd : rootOf d' with
  | none =>
      rw [pullRoot_eq hd]
      exact h r
  | some root =>
      obtain rfl := hroot root hd
      obtain ⟨t, a, rfl, hop, ha⟩ := (h root).rooted.of_rootOf hd
      refine ⟨ha, fun root' => ?_⟩
      have hsame := (h root).same root'
      refine ⟨hsame.width, fun p => iff_of_false ?_ fun hpolice => ?_,
        hsame.num, hsame.eval⟩
      · rintro rfl
        cases hop
      · exact Data.noConfusion ((hsame.police p).mpr hpolice)

theorem RootsBubbled.node (limit : Bool) (hdsc : dsc.locates = false)
    (ha : RootsBubbled env a a') (hb : RootsBubbled env b b')
    (hc : RootsBubbled env c c') :
    RootsBubbled env (.op dsc t a b c) (bubbleNode limit dsc t a' b' c') := by
  have hkeep : RootsBubbled env (.op dsc t a b c) (.op dsc t a' b' c') :=
    fun r => .op hdsc (ha r) (hb r) (hc r)
  have hwrap (r : Nat) {b'' c'' : Data}
      (hr : ∀ root, rootOf a' = some root → root = r)
      (hb : Behind env r b b'') (hc : Behind env r c c'') :
      RootsBubbled env (.op dsc t a b c)
        (fieldRootOf (.op dsc t (pullRoot a') b'' c'') r) :=
    Behind.fieldRootOf (.op hdsc (ha.pull hr) hb hc) rfl
  unfold bubbleNode
  dsimp only
  split
  · exact hkeep
  · next common haroot =>
      obtain ⟨hroot, -⟩ := haveCommonRoot_true haroot
      split
      · exact hkeep
      · next r hbroot =>
          obtain rfl := haveCommonRoot_false hbroot
          split
          · exact hkeep
          · refine hwrap r (fun root ha => ?_) (hb r) (hc r)
            exact (Option.some.inj (hroot root ha)).symm
      · next common' hbroot =>
          obtain ⟨hbown, hbcommon⟩ := haveCommonRoot_true hbroot
          split
          · exact hkeep
          · exact hkeep
          · next r hcroot =>
              obtain ⟨hcown, hccommon⟩ := haveCommonRoot_true hcroot
              have hr (root : Nat) (ha : rootOf a' = some root) : root = r := by
                have hall := hccommon root (hbcommon root (hroot root ha))
                exact (Option.some.inj hall).symm
              have hbr (root : Nat) (hb : rootOf b' = some root) : root = r :=
                (Option.some.inj (hccommon root (hbown root hb))).symm
              have hcr (root : Nat) (hc : rootOf c' = some root) : root = r :=
                (Option.some.inj (hcown root hc)).symm
              split
              · split
                · exact hkeep
                · exact hwrap r hr (hb r) (hc r)
              · next hlimit =>
                  rw [Bool.eq_false_of_not_eq_true hlimit, Bool.false_and]
                  exact hwrap r hr (hb.pull hbr) (hc.pull hcr)

private theorem behind_access (t : DataType) (root : Nat) (m n : BitVec 32) :
    Behind env root (.op .access t (.fieldRoot root) (.unum m) (.unum n))
      (.op .access t .none (.unum m) (.unum n)) :=
  ⟨.access t m n, fun _ => .located .access .access rfl rfl⟩

private theorem behind_offset (t t' : DataType) (root : Nat) (n : BitVec 32)
    (hb : Behind env root b b') :
    Behind env root
      (.op .offset t (.op .access t' (.fieldRoot root) (.unum 0) (.unum n)) b
        .none)
      (.op .offset t (.op .access t' .none (.unum 0) (.unum n)) b' .none) := by
  refine ⟨.offset t t' 0 n hb.rooted, fun root' => ?_⟩
  refine .located (.offset .access) (.offset .access) rfl ?_
  simp only [Data.num, Data.rootOr, (hb.same root').num]

/-- The field root of an access is that of the offset operator. -/
private theorem bubbleNode_offset (limit : Bool) (t t' : DataType) (root : Nat)
    (n : BitVec 32) (hb : RootsBubbled env b b') :
    ∃ b'', Behind env root b b'' ∧
      bubbleNode limit .offset t
          (fieldRootOf (.op .access t' .none (.unum 0) (.unum n)) root) b'
          .none =
        fieldRootOf
          (.op .offset t (.op .access t' .none (.unum 0) (.unum n)) b'' .none)
          root := by
  have haroot : haveCommonRoot
      (fieldRootOf (.op .access t' .none (.unum 0) (.unum n)) root) none =
        (true, some root) := rfl
  have hcroot : haveCommonRoot .none (some root) = (true, some root) := rfl
  cases hbroot : haveCommonRoot b' (some root) with
  | mk common common' =>
      cases common with
      | false =>
          obtain rfl := haveCommonRoot_false hbroot
          refine ⟨b', hb root, ?_⟩
          cases limit <;> simp only [bubbleNode, haroot, hbroot] <;> rfl
      | true =>
          obtain ⟨hown, hcommon⟩ := haveCommonRoot_true hbroot
          obtain rfl := hcommon root rfl
          cases limit with
          | true =>
              refine ⟨b', hb root, ?_⟩
              simp only [bubbleNode, haroot, hbroot, hcroot]
              rfl
          | false =>
              have hr (r : Nat) (h : rootOf b' = some r) : r = root :=
                (Option.some.inj (hown r h)).symm
              refine ⟨pullRoot b', hb.pull hr, ?_⟩
              simp only [bubbleNode, haroot, hbroot, hcroot]
              rfl

theorem bubbleRoots_spec (limit : Bool) (hd : OffsetUsed d) :
    RootsBubbled env d (bubbleRoots limit d) := by
  induction hd with
  | @leaf d hop hroot =>
      have hd : bubbleRoots limit d = d := by
        cases d with
        | op => cases hop
        | fieldRoot => exact absurd rfl hroot
        | _ => rfl
      rw [hd]
      exact fun r => ⟨.leaf hop hroot, fun _ => .leaf hop⟩
  | access t root m n =>
      cases limit <;> exact (behind_access t root m n).fieldRootOf rfl
  | offset t t' root n hb ih =>
      obtain ⟨b', hbehind, hnode⟩ := bubbleNode_offset limit t t' root n ih
      have haccess : bubbleRoots limit
          (.op .access t' (.fieldRoot root) (.unum 0) (.unum n)) =
            fieldRootOf (.op .access t' .none (.unum 0) (.unum n)) root := by
        cases limit <;> rfl
      rw [bubbleRoots, haccess]
      refine Eq.symm hnode ▸ ?_
      exact (behind_offset t t' root n hbehind).fieldRootOf rfl
  | op hdsc _ _ _ iha ihb ihc => exact .node limit hdsc iha ihb ihc

/-- A pass that leaves operators operators. -/
structure Kept (env : Env) (base : Base) (d d' : Data) : Prop where
  rooted : Rooted d'
  isOp : d'.isOp = d.isOp
  same : SameAt env base base d d'

theorem trimRoots_spec (hd : Rooted d) (root : Nat) :
    Kept env ⟨root, 0⟩ d (trimRoots d root) := by
  induction hd generalizing root with
  | @leaf d hop hroot =>
      have hd : trimRoots d root = d := by
        cases d with
        | op => cases hop
        | _ => rfl
      rw [hd]
      exact ⟨.leaf hop hroot, rfl, .leaf hop⟩
  | access t m n => exact ⟨.access t m n, rfl, .located .access .access rfl rfl⟩
  | offset t t' m n hb ih =>
      refine ⟨.offset t t' m n (ih root).rooted, rfl,
        .located (.offset .access) (.offset .access) rfl ?_⟩
      simp only [trimRoots, Data.num, (ih root).same.num]
  | @fieldRoot t a r hop ha ih =>
      have hsame := (ih r).same
      rw [trimRoots]
      split
      · next hr =>
          obtain rfl : r = root := hr
          refine ⟨(ih r).rooted, (ih r).isOp.trans hop, hsame.width,
            fun p => iff_of_false ?_ Data.noConfusion, hsame.num, hsame.eval⟩
          intro hp
          have hleaf : false = a.isOp :=
            (congrArg Data.isOp hp).symm.trans (ih r).isOp
          rw [hop] at hleaf
          cases hleaf
      · exact ⟨.fieldRoot t r ((ih r).isOp.trans hop) (ih r).rooted, rfl,
          hsame.width, fun p => iff_of_false Data.noConfusion Data.noConfusion,
          hsame.num, hsame.eval⟩
  | @op dsc _ _ _ _ hdsc _ _ _ iha ihb ihc =>
      cases dsc
      case access | offset | fieldRoot => cases hdsc
      all_goals
        exact ⟨.op hdsc (iha root).rooted (ihb root).rooted (ihc root).rooted,
          rfl, .op hdsc (iha root).same (ihb root).same⟩

/-! ## Constants in sums -/

theorem Data.le_width (d : Data) : 32 ≤ d.width := by
  induction d with
  | op dsc t a b c iha ihb =>
      cases dsc
      case access =>
        cases c with
        | unum n =>
            rw [Data.width]
            split <;> decide
        | _ => exact Nat.le_refl _
      all_goals simp only [Data.width]; omega
  | ipv6 => exact (by decide : 32 ≤ 128)
  | _ => exact Nat.le_refl _

theorem ofNat_plus (t : DataType) (a b c : Data) (packet : Packet)
    (base : Base) : BitVec.ofNat 32 ((Data.op .plus t a b c).num packet base) =
      .ofNat 32 (a.num packet base) + .ofNat 32 (b.num packet base) := by
  have hdvd : 2 ^ 32 ∣ 2 ^ max a.width b.width :=
    Nat.pow_dvd_pow 2 (Nat.le_trans a.le_width (Nat.le_max_left _ _))
  have hnum : (Data.op .plus t a b c).num packet base =
      (a.num packet base + b.num packet base) % 2 ^ max a.width b.width := rfl
  apply BitVec.eq_of_toNat_eq
  rw [← BitVec.ofNat_add, BitVec.toNat_ofNat, BitVec.toNat_ofNat, hnum,
    Nat.mod_mod_of_dvd _ hdvd]

theorem ofNat_unum (n : BitVec 32) (packet : Packet) (base : Base) :
    BitVec.ofNat 32 ((Data.unum n).num packet base) = n := by
  rw [Data.num, BitVec.ofNat_toNat, BitVec.setWidth_eq]

theorem extractSum_num (d : Data) (packet : Packet) (base : Base) :
    BitVec.ofNat 32 (d.num packet base) =
      (extractSum d).1 + .ofNat 32 ((extractSum d).2.num packet base) := by
  induction d generalizing base with
  | op dsc t a b c iha ihb =>
      cases dsc
      case offset => exact iha _
      case plus =>
        rw [ofNat_plus, iha base, ihb base, extractSum]
        dsimp only
        split
        · next m n ha hb =>
            rw [ha, hb, ofNat_unum, ofNat_unum, ofNat_unum]
            simp only [BitVec.ofNat_eq_ofNat, BitVec.add_zero]
            ac_rfl
        · next m ha _ =>
            rw [ha, ofNat_unum]
            dsimp only
            ac_rfl
        · next n hb _ =>
            rw [hb, ofNat_unum]
            dsimp only
            ac_rfl
        · rw [ofNat_plus]
          ac_rfl
      all_goals exact (BitVec.zero_add _).symm
  | _ => exact (BitVec.zero_add _).symm

theorem extractSum_rooted (hd : Rooted d) : Rooted (extractSum d).2 := by
  induction hd with
  | @leaf d hop hroot =>
      cases d with
      | op => cases hop
      | _ => exact .leaf hop hroot
  | access t m n => exact .access t m n
  | offset t t' m n hb => exact .offset t t' m n hb
  | fieldRoot t root hop ha => exact .fieldRoot t root hop ha
  | @op dsc t a b c hdsc ha hb hc iha ihb =>
      cases dsc
      case access | offset | fieldRoot => cases hdsc
      case plus =>
        rw [extractSum]
        dsimp only
        split
        · exact .leaf rfl DataType.noConfusion
        · exact ihb
        · exact iha
        · exact .op rfl iha ihb hc
      all_goals exact .op rfl ha hb hc

/-! ## Pushing constants into accesses -/

theorem readBits_index (wire : Wire) (root offset : Nat) {x x' : Nat}
    {m m' : BitVec 32} (h : m + .ofNat 32 x = m' + .ofNat 32 x') (n : Nat) :
    readBits (wire.packet root) (offset + 8 * x + 8 * m.toNat) n =
      readBits (wire.packet root) (offset + 8 * x' + 8 * m'.toNat) n := by
  have height (k : Nat) (l : BitVec 32) :
      BitVec.ofNat 32 (offset + 8 * k + 8 * l.toNat) =
        .ofNat 32 offset + 8 * (l + .ofNat 32 k) := by
    rw [BitVec.ofNat_add, BitVec.ofNat_add, BitVec.ofNat_mul, BitVec.ofNat_mul,
      BitVec.ofNat_toNat, BitVec.setWidth_eq, BitVec.add_assoc,
      ← BitVec.mul_add, BitVec.add_comm l]
    rfl
  refine wire.readBits_packet root ?_ n
  rw [height, height, h]

theorem constantUnum_some {n : BitVec 32} (h : constantUnum d = some n) :
    d = .unum n := by
  cases d with
  | unum => exact congrArg Data.unum (Option.some.inj h)
  | _ => cases h

/-- A constant index goes into the access, and with it the operator. -/
private theorem pushedAccess_same (wire : Wire)
    (conforms : List Bucket → Bucket → Bool) (base : Base) (t t' : DataType)
    {m m' n : BitVec 32}
    (h : m' = m + .ofNat 32 (b.num wire.packet base)) :
    SameAt ⟨wire.packet, conforms⟩ base base
      (.op .offset t (.op .access t' .none (.unum m) (.unum n)) b .none)
      (.op .access t' .none (.unum m') (.unum n)) := by
  refine .located (.offset .access) .access rfl ?_
  have hread := readBits_index wire base.root base.offset (x := 0)
    (h := (BitVec.add_zero m').trans h) n.toNat
  rw [Nat.mul_zero, Nat.add_zero] at hread
  exact hread

/-- The constants of an index go into the access. -/
private theorem pushedOffset_same (wire : Wire)
    (conforms : List Bucket → Bucket → Bool) (base : Base) (t t' : DataType)
    {m m' n : BitVec 32}
    (h : m' + .ofNat 32 (b'.num wire.packet base) =
      m + .ofNat 32 (b.num wire.packet base)) :
    SameAt ⟨wire.packet, conforms⟩ base base
      (.op .offset t (.op .access t' .none (.unum m) (.unum n)) b .none)
      (.op .offset t (.op .access t' .none (.unum m') (.unum n)) b' .none) :=
  .located (.offset .access) (.offset .access) rfl
    (readBits_index wire base.root base.offset h n.toNat)

private theorem doPushOffset_leaf (hop : d.isOp = false) (n : BitVec 32) :
    doPushOffset d n = d := by
  cases d with
  | op => cases hop
  | _ => simp only [doPushOffset]

private theorem doPushOffset_access (t : DataType) (m n k : BitVec 32) :
    doPushOffset (.op .access t .none (.unum m) (.unum n)) k =
      .op .access t .none (.unum (m + k)) (.unum n) := by
  simp only [doPushOffset, addBase]

private theorem doPushOffset_op {n : BitVec 32} (hoffset : dsc ≠ .offset)
    (haccess : dsc ≠ .access) :
    doPushOffset (.op dsc t a b c) n =
      .op dsc t (doPushOffset a n) (doPushOffset b n) (doPushOffset c n) := by
  cases dsc
  case offset => exact absurd rfl hoffset
  case access => exact absurd rfl haccess
  all_goals simp only [doPushOffset]

theorem doPushOffset_spec (wire : Wire)
    (conforms : List Bucket → Bucket → Bool) (hd : Rooted d) (base : Base) :
    Kept ⟨wire.packet, conforms⟩ base d (doPushOffset d 0) := by
  -- what is left of an index is no operand, but smaller than the operator
  induction hsize : d.size using Nat.strongRecOn generalizing d base with
  | ind size ih =>
      subst hsize
      cases hd with
      | leaf hop hroot =>
          rw [doPushOffset_leaf hop]
          exact ⟨.leaf hop hroot, rfl, .leaf hop⟩
      | access t m n =>
          rw [doPushOffset_access, BitVec.ofNat_eq_ofNat, BitVec.add_zero]
          exact ⟨.access t m n, rfl, .located .access .access rfl rfl⟩
      | @offset t t' m n b hb =>
          have hlt : (extractSum b).2.size < (Data.op .offset t
              (.op .access t' .none (.unum m) (.unum n)) b .none).size := by
            have hle := extractSum_size b
            simp only [Data.size]
            omega
          have hsum := extractSum_num b wire.packet base
          have hrest := ih _ hlt (extractSum_rooted hb) base rfl
          rw [doPushOffset]
          cases hconstant : constantUnum (extractSum b).2 with
          | some k =>
              rw [constantUnum_some hconstant, ofNat_unum] at hsum
              dsimp only
              rw [doPushOffset_access]
              refine ⟨.access t' _ n, rfl,
                pushedAccess_same wire conforms base t t' ?_⟩
              rw [hsum, BitVec.ofNat_eq_ofNat, BitVec.zero_add]
          | none =>
              dsimp only
              rw [doPushOffset_access, doPushOffset_leaf (d := .none) rfl]
              refine ⟨.offset t t' _ n hrest.rooted, rfl,
                pushedOffset_same wire conforms base t t' ?_⟩
              rw [hrest.same.num, hsum, BitVec.ofNat_eq_ofNat, BitVec.zero_add,
                BitVec.add_assoc]
      | @fieldRoot t a root hop ha =>
          have hlt : a.size <
              (Data.op .fieldRoot t a (.fieldRoot root) .none).size := by
            simp only [Data.size]
            omega
          have hkept := ih _ hlt ha ⟨root, 0⟩ rfl
          rw [doPushOffset_op OpDsc.noConfusion OpDsc.noConfusion,
            doPushOffset_leaf (d := .none) rfl,
            doPushOffset_leaf (d := .fieldRoot root) rfl]
          exact ⟨.fieldRoot t root (hkept.isOp.trans hop) hkept.rooted, rfl,
            hkept.same.width,
            fun p => iff_of_false Data.noConfusion Data.noConfusion,
            hkept.same.num, hkept.same.eval⟩
      | @op dsc t a b c hdsc ha hb hc =>
          have hsize : (Data.op dsc t a b c).size =
              a.size + b.size + c.size + 1 := rfl
          have hakept := ih a.size (by omega) ha base rfl
          have hbkept := ih b.size (by omega) hb base rfl
          have hckept := ih c.size (by omega) hc base rfl
          have hnode : doPushOffset (.op dsc t a b c) 0 = .op dsc t
              (doPushOffset a 0) (doPushOffset b 0) (doPushOffset c 0) := by
            cases dsc
            case access | offset => cases hdsc
            all_goals exact doPushOffset_op OpDsc.noConfusion OpDsc.noConfusion
          rw [hnode]
          exact ⟨.op hdsc hakept.rooted hbkept.rooted hckept.rooted, rfl,
            .op hdsc hakept.same hbkept.same⟩

/-! ## The whole pass -/

/-- The pass succeeds, leaves accesses at constant indices below the operators
that locate them, and decides as before. Positions in packets have 32 bits. -/
theorem iflibOffset_outcome (hd : Expanded d) :
    ∃ d', iflibOffset d = .ok d' ∧ Rooted d' ∧
      ∀ (wire : Wire) (conforms : List Bucket → Bucket → Bool),
        d'.outcome ⟨wire.packet, conforms⟩ =
          d.outcome ⟨wire.packet, conforms⟩ := by
  obtain ⟨used, huse, hused, hsame⟩ := useOffset_spec hd
  have hbubbled (env : Env) : RootsBubbled env used (bubbleRoots false used) :=
    bubbleRoots_spec false hused
  have htrimmed (env : Env) : Kept env .start (bubbleRoots false used)
      (trimRoots (bubbleRoots false used) 0) :=
    trimRoots_spec (hbubbled env 0).rooted 0
  have hpushed (wire : Wire) (conforms : List Bucket → Bucket → Bool) :
      Kept ⟨wire.packet, conforms⟩ .start
        (trimRoots (bubbleRoots false used) 0)
        (pushOffset (trimRoots (bubbleRoots false used) 0)) :=
    doPushOffset_spec wire conforms (htrimmed ⟨wire.packet, conforms⟩).rooted
      .start
  refine ⟨pushOffset (trimRoots (bubbleRoots false used) 0), ?_,
    (hpushed (fun _ _ => false) fun _ _ => false).rooted,
    fun wire conforms => ?_⟩
  · rw [iflibOffset, huse]
    rfl
  · have hwhole := ((hsame ⟨wire.packet, conforms⟩ .start).trans
      ((hbubbled _ 0).same 0)).trans
        ((htrimmed _).same.trans (hpushed wire conforms).same)
    exact congrFun hwhole.eval []

/-- `raw[(raw[0] & 15) + 2].ns == 80` behind the field root 5 -/
def indexedTest : Data :=
  .eq
    (.op .access .unum (.fieldRoot 5)
      (.op .plus .unum
        (.op .and .unum
          (.op .access .unum (.fieldRoot 5) (.unum 0) (.unum 8)) (.unum 15)
          .none)
        (.unum 2) .none)
      (.unum 16))
    (.unum 80)

theorem indexedTest_expanded : Expanded indexedTest := by
  have hleaf (n : BitVec 32) : Expanded (.unum n) :=
    .leaf rfl DataType.noConfusion
  have hnone : Expanded .none := .leaf rfl DataType.noConfusion
  have hlength : Expanded (.op .and .unum
      (.op .access .unum (.fieldRoot 5) (.unum 0) (.unum 8)) (.unum 15)
      .none) :=
    .op rfl (.access 5 8 (hleaf 0) rfl) (hleaf 15) hnone
  exact .op rfl (.access 5 16 (.op rfl hlength (hleaf 2) hnone) rfl)
    (hleaf 80) hnone

theorem iflibOffset_outcome_indexedTest :
    ∃ d', iflibOffset indexedTest = .ok d' ∧ Rooted d' ∧
      ∀ (wire : Wire) (conforms : List Bucket → Bucket → Bool),
        d'.outcome ⟨wire.packet, conforms⟩ =
          indexedTest.outcome ⟨wire.packet, conforms⟩ :=
  iflibOffset_outcome indexedTest_expanded

end Tcng
