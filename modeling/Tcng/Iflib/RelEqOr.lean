import Tcng.Agree
import Tcng.Lib.BitOrder
import Tcng.Spans

/-! Elimination of `|` and `^` in front of `==` (`rel_eq_or` of
`iflib_arith.c`). -/

namespace Tcng

open ShortCircuit

/-- The constant of two operands, the left one first, and the other operand. -/
def constantOf (p q : Data) : Option (Data × Data) :=
  if p.isConstant then some (p, q)
  else if q.isConstant then some (q, p)
  else none

/-! Two constants are taken in 32 bits if both of them are. -/

def xorConstant (b k : Data) : Data :=
  match b, k with
  | .unum m, .unum n => .unum (m ^^^ n)
  | b, k => .ipv6 (b.convertIpv6.xor k.convertIpv6)

/-- Not all bits of `k` are in `b`. -/
def bitsMissing (b k : Data) : Bool :=
  match b, k with
  | .unum m, .unum n => n &&& m != n
  | b, k => (k.convertIpv6.and b.convertIpv6).cmp k.convertIpv6 != 0

def clearMask (b k : Data) : Data :=
  match b, k with
  | .unum _, .unum n => .unum (~~~n)
  | _, k => .ipv6 k.convertIpv6.not

def clearBits (b k : Data) : Data :=
  match b, k with
  | .unum m, .unum n => .unum (m &&& ~~~n)
  | b, k => .ipv6 (b.convertIpv6.and k.convertIpv6.not)

/-- One node of `rel_eq_or`. -/
def relEqOrNode (dsc : OpDsc) (t : DataType) (a b c : Data) : Data :=
  if dsc = .eq ∧ a.exprEqual b then .unum 1
  else if dsc ≠ .eq ∨ b.isConstant = false then .op dsc t a b c
  else
    match a with
    | .op dsc' t' p q z =>
        if dsc' ≠ .or ∧ dsc' ≠ .xor then .op dsc t a b c
        else
          match constantOf p q with
          | none => .op dsc t a b c
          | some (k, x) =>
              if dsc' = .xor then .op dsc t x (xorConstant b k) c
              else if bitsMissing b k then .unum 0
              else .op dsc t (.op .and t' x (clearMask b k) z)
                (clearBits b k) c
    | _ => .op dsc t a b c

def relEqOr : Data → Data
  | .op dsc t a b c => relEqOrNode dsc t (relEqOr a) (relEqOr b) (relEqOr c)
  | d => d

/-- There are no tests in an arithmetic expression. -/
theorem relEqOr_numeric {d : Data} (h : d.numeric = true) : relEqOr d = d := by
  induction d with
  | op dsc t a b c iha ihb ihc =>
      simp only [Data.numeric, Bool.and_eq_true] at h
      obtain ⟨hdsc, ⟨ha, hb⟩, hc⟩ := h
      have hne : dsc ≠ .eq := by
        rintro rfl
        cases hdsc
      rw [relEqOr, iha ha, ihb hb, ihc hc]
      exact (if_neg fun hsame => hne hsame.1).trans (if_pos (.inl hne))
  | _ => rfl

/-! ## Constants -/

/-- The width in which two constants are taken. -/
def commonWidth (b k : Data) : Nat :=
  if b.type = .unum ∧ k.type = .unum then 32 else 128

/-- Two constants of 32 bits, or 128 bits for both. -/
private inductive ConstantPair : Data → Data → Prop
  | narrow (m n : BitVec 32) : ConstantPair (.unum m) (.unum n)
  | wide {b k : Data} (hwidth : commonWidth b k = 128)
      (hxor : xorConstant b k = .ipv6 (b.convertIpv6.xor k.convertIpv6))
      (hmissing : bitsMissing b k =
        ((k.convertIpv6.and b.convertIpv6).cmp k.convertIpv6 != 0))
      (hmask : clearMask b k = .ipv6 k.convertIpv6.not)
      (hbits : clearBits b k =
        .ipv6 (b.convertIpv6.and k.convertIpv6.not)) :
      ConstantPair b k

section

variable {b k : Data} (hb : b.isConstant = true) (hk : k.isConstant = true)
include hb hk

private theorem constant_pair : ConstantPair b k := by
  cases b with
  | unum m =>
      cases k with
      | unum n => exact .narrow m n
      | ipv6 n => exact .wide rfl rfl rfl rfl rfl
      | _ => cases hk
  | ipv6 m =>
      cases k with
      | unum n | ipv6 n => exact .wide rfl rfl rfl rfl rfl
      | _ => cases hk
  | _ => cases hb

private theorem convert_lt :
    b.convertIpv6.toNat < 2 ^ commonWidth b k ∧
      k.convertIpv6.toNat < 2 ^ commonWidth b k := by
  cases constant_pair hb hk with
  | narrow m n =>
      rw [Data.convertIpv6, Data.convertIpv6, U128.toNat_ofBitVec32,
        U128.toNat_ofBitVec32]
      exact ⟨m.isLt, n.isLt⟩
  | wide hwidth =>
      rw [hwidth]
      exact ⟨U128.toNat_lt _, U128.toNat_lt _⟩

private theorem xorConstant_num (packet : Packet) (base : Base) :
    (xorConstant b k).num packet base =
      b.convertIpv6.toNat ^^^ k.convertIpv6.toNat := by
  cases constant_pair hb hk with
  | narrow m n =>
      rw [Data.convertIpv6, Data.convertIpv6, U128.toNat_ofBitVec32,
        U128.toNat_ofBitVec32]
      exact BitVec.toNat_xor m n
  | wide _ hxor =>
      rw [hxor]
      exact U128.toNat_xor _ _

private theorem bitsMissing_eq_false_iff :
    bitsMissing b k = false ↔
      k.convertIpv6.toNat &&& b.convertIpv6.toNat = k.convertIpv6.toNat := by
  cases constant_pair hb hk with
  | narrow m n =>
      rw [Data.convertIpv6, Data.convertIpv6, U128.toNat_ofBitVec32,
        U128.toNat_ofBitVec32, ← BitVec.toNat_and, BitVec.toNat_inj]
      exact bne_eq_false_iff_eq
  | wide _ _ hmissing =>
      rw [hmissing, bne_eq_false_iff_eq, U128.cmp_eq_zero_iff,
        ← U128.toNat_and]
      exact ⟨fun h => congrArg U128.toNat h, fun h => U128.toNat_injective h⟩

private theorem clearMask_num (packet : Packet) (base : Base) :
    (clearMask b k).num packet base =
      2 ^ commonWidth b k - 1 - k.convertIpv6.toNat := by
  cases constant_pair hb hk with
  | narrow m n =>
      rw [Data.convertIpv6, U128.toNat_ofBitVec32]
      exact BitVec.toNat_not
  | wide hwidth _ _ hmask =>
      rw [hwidth, hmask]
      exact U128.toNat_not _

private theorem clearBits_num (packet : Packet) (base : Base) :
    (clearBits b k).num packet base =
      b.convertIpv6.toNat &&&
        (2 ^ commonWidth b k - 1 - k.convertIpv6.toNat) := by
  cases constant_pair hb hk with
  | narrow m n =>
      have hnot : 2 ^ commonWidth (.unum m) (.unum n) - 1 - n.toNat =
          (~~~n).toNat := BitVec.toNat_not.symm
      rw [Data.convertIpv6, Data.convertIpv6, U128.toNat_ofBitVec32,
        U128.toNat_ofBitVec32, hnot]
      exact BitVec.toNat_and m (~~~n)
  | wide hwidth _ _ _ hbits =>
      rw [hwidth, hbits, ← U128.toNat_not, ← U128.toNat_and]
      rfl

end

/-! ## Nodes -/

/-- What a test of `x | k` or `x ^ k` for `b` becomes. -/
private inductive EqOrStep (dsc : OpDsc) (t : DataType) (a b c : Data) :
    Data → Prop
  | same (h : dsc = .eq) (hab : a.exprEqual b = true) :
      EqOrStep dsc t a b c (.unum 1)
  | keep : EqOrStep dsc t a b c (.op dsc t a b c)
  | xor {t' p q z k x} (h : dsc = .eq) (ha : a = .op .xor t' p q z)
      (hk : constantOf p q = some (k, x)) (hb : b.isConstant = true) :
      EqOrStep dsc t a b c (.op dsc t x (xorConstant b k) c)
  | never {t' p q z k x} (h : dsc = .eq) (ha : a = .op .or t' p q z)
      (hk : constantOf p q = some (k, x)) (hb : b.isConstant = true)
      (hmissing : bitsMissing b k = true) : EqOrStep dsc t a b c (.unum 0)
  | or {t' p q z k x} (h : dsc = .eq) (ha : a = .op .or t' p q z)
      (hk : constantOf p q = some (k, x)) (hb : b.isConstant = true)
      (hmissing : bitsMissing b k = false) :
      EqOrStep dsc t a b c
        (.op dsc t (.op .and t' x (clearMask b k) z) (clearBits b k) c)

private theorem relEqOrNode_step (dsc : OpDsc) (t : DataType)
    (a b c : Data) : EqOrStep dsc t a b c (relEqOrNode dsc t a b c) := by
  unfold relEqOrNode
  split
  · rename_i hsame
    exact .same hsame.1 hsame.2
  split
  · exact .keep
  rename_i hother
  simp only [not_or, ne_eq, not_not, Bool.not_eq_false] at hother
  obtain ⟨hdsc, hb⟩ := hother
  split
  · rename_i dsc' t' p q z _
    split
    · exact .keep
    rename_i hop
    split
    · exact .keep
    rename_i k x hk
    split
    · rename_i hxor
      subst hxor
      exact .xor hdsc rfl hk hb
    rename_i hxor
    have hor : dsc' = OpDsc.or := by
      simp only [not_and, not_not] at hop
      by_contra hor
      exact hxor (hop hor)
    subst hor
    split
    · rename_i hmissing
      exact .never hdsc rfl hk hb hmissing
    · rename_i hmissing
      exact .or hdsc rfl hk hb (Bool.not_eq_true _ ▸ hmissing)
  · exact .keep

/-- The operands are the constant and the other one, in some order. -/
private theorem constantOf_cases {p q k x : Data}
    (h : constantOf p q = some (k, x)) :
    k.isConstant = true ∧ (p = k ∧ q = x ∨ p = x ∧ q = k) := by
  unfold constantOf at h
  split at h
  · rename_i hp
    cases h
    exact ⟨hp, .inl ⟨rfl, rfl⟩⟩
  split at h
  · rename_i hq
    cases h
    exact ⟨hq, .inr ⟨rfl, rfl⟩⟩
  · cases h

/-- What `rel_eq_or` relies on at a test that has become `a == b`: nothing is
compared above the common width of the two constants. -/
def OperandKept (packet : Packet) (a b : Data) : Prop :=
  ∀ t p q z k x, a = .op .or t p q z → constantOf p q = some (k, x) →
    b.isConstant = true → bitsMissing b k = false →
    ∀ base, a.num packet base < 2 ^ commonWidth b k

section

variable {packet : Packet} {t : DataType} {p q z k x : Data}
  (h : constantOf p q = some (k, x)) (base : Base)
include h

private theorem num_xorOperand :
    (Data.op .xor t p q z).num packet base =
      x.num packet base ^^^ k.convertIpv6.toNat := by
  obtain ⟨hk, hside⟩ := constantOf_cases h
  rw [Data.convertIpv6_toNat hk packet base]
  rcases hside with ⟨rfl, rfl⟩ | ⟨rfl, rfl⟩
  · exact Nat.xor_comm _ _
  · rfl

private theorem num_orOperand :
    (Data.op .or t p q z).num packet base =
      x.num packet base ||| k.convertIpv6.toNat := by
  obtain ⟨hk, hside⟩ := constantOf_cases h
  rw [Data.convertIpv6_toNat hk packet base]
  rcases hside with ⟨rfl, rfl⟩ | ⟨rfl, rfl⟩
  · exact Nat.or_comm _ _
  · rfl

end

private theorem relEqOrNode_agree {packet : Packet} {dsc : OpDsc}
    {a b : Data} (hkept : dsc = .eq → OperandKept packet a b)
    (t : DataType) (c : Data) :
    Agree packet (relEqOrNode dsc t a b c) (.op dsc t a b c) := by
  have hstep := relEqOrNode_step dsc t a b c
  generalize relEqOrNode dsc t a b c = e at hstep ⊢
  have hconst (hb : b.isConstant = true) (base : Base) :
      b.num packet base = b.convertIpv6.toNat :=
    (Data.convertIpv6_toNat hb packet base).symm
  cases hstep with
  | same h hab =>
      subst h
      refine Agree.of_result rfl true fun base => ?_
      rw [Data.exprEqual_num hab]
      exact beq_self_eq_true _
  | keep => exact .refl packet _
  | xor h ha hk hb =>
      subst h ha
      refine Agree.of_relations rfl rfl fun base => beq_eq_beq.mpr ?_
      rw [num_xorOperand hk, xorConstant_num hb (constantOf_cases hk).1,
        hconst hb, BitOrder.xor_eq_iff]
  | @never _ _ _ _ k _ h ha hk hb hmissing =>
      subst h ha
      refine Agree.of_result rfl false fun base => ?_
      have hne : k.convertIpv6.toNat &&& b.convertIpv6.toNat ≠
          k.convertIpv6.toNat := by
        rw [ne_eq, ← bitsMissing_eq_false_iff hb (constantOf_cases hk).1,
          hmissing]
        nofun
      rw [num_orOperand hk, hconst hb]
      exact beq_eq_false_iff_ne.mpr (BitOrder.or_ne hne)
  | @or t' p q z k x h ha hk hb hmissing =>
      have hlt := hkept h t' p q z k x ha hk hb hmissing
      subst h ha
      have hkc := (constantOf_cases hk).1
      obtain ⟨hblt, hklt⟩ := convert_lt hb hkc
      refine Agree.of_relations rfl rfl fun base => beq_eq_beq.mpr ?_
      have hx : x.num packet base < 2 ^ commonWidth b k := by
        have hor := hlt base
        rw [num_orOperand hk] at hor
        exact Nat.lt_of_le_of_lt Nat.left_le_or hor
      have hmask : (Data.op .and t' x (clearMask b k) z).num packet base =
          x.num packet base &&&
            (2 ^ commonWidth b k - 1 - k.convertIpv6.toNat) := by
        rw [← clearMask_num hb hkc packet base]
        rfl
      rw [num_orOperand hk, hconst hb, hmask, clearBits_num hb hkc]
      exact (BitOrder.or_eq_iff hx hklt hblt
        ((bitsMissing_eq_false_iff hb hkc).mp hmissing)).symm

/-! ## Expressions -/

/-- At every test, once its operands have been rewritten. -/
def OrKept (packet : Packet) : Data → Prop
  | .op dsc _ a b c => OrKept packet a ∧ OrKept packet b ∧ OrKept packet c ∧
      (dsc = .eq → OperandKept packet (relEqOr a) (relEqOr b))
  | _ => True

private theorem relEqOr_agree {packet : Packet} {d : Data}
    (h : OrKept packet d) : Agree packet (relEqOr d) d := by
  induction d with
  | op dsc t a b c iha ihb ihc =>
      obtain ⟨ha, hb, hc, hnode⟩ := h
      rw [relEqOr]
      exact (relEqOrNode_agree hnode t _).trans
        (Agree.op (iha ha) (ihb hb) (ihc hc) dsc t)
  | _ => exact .refl packet _

/-! ## When only 32 bits are looked at -/

/-- Where both constants of `x | k == b` have 32 bits, and `b` has the bits of
`k`, `x` has no more than 32. -/
def OperandNarrow (packet : Packet) (a b : Data) : Prop :=
  ∀ t p q z k x, a = .op .or t p q z → constantOf p q = some (k, x) →
    b.isConstant = true → b.type = .unum → k.type = .unum →
    bitsMissing b k = false → ∀ base, x.num packet base < 2 ^ 32

/-- At every test, once its operands have been rewritten. -/
def OrNarrow (packet : Packet) : Data → Prop
  | .op dsc _ a b c => OrNarrow packet a ∧ OrNarrow packet b ∧
      OrNarrow packet c ∧
      (dsc = .eq → OperandNarrow packet (relEqOr a) (relEqOr b))
  | _ => True

/-- Nothing has more than 128 bits anyway. -/
private theorem operandKept_of_narrow {packet : Packet} {a b : Data}
    (hwide : ∀ base, a.num packet base < 2 ^ 128)
    (h : OperandNarrow packet a b) : OperandKept packet a b := by
  intro t p q z k x ha hk hb hmissing base
  unfold commonWidth
  split <;> rename_i hnarrow
  · have hx := h t p q z k x ha hk hb hnarrow.1 hnarrow.2 hmissing base
    obtain ⟨hkc, -⟩ := constantOf_cases hk
    have hklt : k.convertIpv6.toNat < 2 ^ 32 := by
      have hlt := (convert_lt hb hkc).2
      rwa [commonWidth, if_pos hnarrow] at hlt
    rw [ha, num_orOperand hk]
    exact Nat.or_lt_two_pow hx hklt
  · exact hwide base

private theorem orKept_of_narrow {packet : Packet} {d : Data}
    (hfit : d.AccessesFit) (h : OrNarrow packet d) : OrKept packet d := by
  induction d with
  | op dsc t a b c iha ihb ihc =>
      obtain ⟨hfa, hfb, hfc, -⟩ := hfit
      obtain ⟨ha, hb, hc, hnode⟩ := h
      have hka := iha hfa ha
      refine ⟨hka, ihb hfb hb, ihc hfc hc, fun hdsc => ?_⟩
      refine operandKept_of_narrow (fun base => ?_) (hnode hdsc)
      rw [(relEqOr_agree hka).num base]
      exact Data.num_lt hfa packet base
  | _ => trivial

/-- What comes out of `rel_eq_or` has the value of before on every packet. -/
def RelEqOrKeeps (d : Data) : Prop :=
  ∀ env base, (relEqOr d).eval env base = d.eval env base

private theorem keeps_of_narrow {d : Data} (hfit : d.AccessesFit)
    (h : ∀ packet, OrNarrow packet d) : RelEqOrKeeps d :=
  fun env base =>
    (relEqOr_agree (orKept_of_narrow hfit (h env.packet))).eval env base rfl

/-! ## Single tests -/

/-- The test `p dsc q == b`. -/
abbrev eqOrTest (dsc : OpDsc) (t : DataType) (p q b : Data) : Data :=
  .eq (.op dsc t p q .none) b

/-- Both constants have 32 bits, `x` has more, and `b` has the bits of `k`. -/
def WideUnderNarrow (dsc : OpDsc) (k b : Data) (w : Nat) : Prop :=
  dsc = .or ∧ 32 < w ∧ k.type = .unum ∧ b.type = .unum ∧
    k.convertIpv6.toNat &&& b.convertIpv6.toNat = k.convertIpv6.toNat

section

variable {dsc : OpDsc} {t : DataType} {p q k x b : Data} {w : Nat}

private theorem relEqOr_eqOrTest (hdsc : dsc = .or ∨ dsc = .xor)
    (hp : p.numeric = true) (hq : q.numeric = true)
    (hb : b.isConstant = true) :
    relEqOr (eqOrTest dsc t p q b) =
      relEqOrNode .eq .unum (.op dsc t p q .none) b .none := by
  have hoperand : (Data.op dsc t p q .none).numeric = true := by
    rcases hdsc with rfl | rfl <;> simp [Data.numeric, OpDsc.arithmetic, hp, hq]
  rw [relEqOr, relEqOr_numeric hoperand,
    relEqOr_numeric (Data.isConstant_numeric hb)]
  rfl

private theorem constantOf_numeric (h : constantOf p q = some (k, x))
    (hx : x.numeric = true) : p.numeric = true ∧ q.numeric = true := by
  obtain ⟨hk, ⟨rfl, rfl⟩ | ⟨rfl, rfl⟩⟩ := constantOf_cases h
  · exact ⟨Data.isConstant_numeric hk, hx⟩
  · exact ⟨hx, Data.isConstant_numeric hk⟩

/-- The test is rewritten at its root only. -/
private theorem orKept_test (hx : Spans x w) (hw : w ≤ 128)
    (hk : constantOf p q = some (k, x)) (hdsc : dsc = .or ∨ dsc = .xor)
    (hb : b.isConstant = true) (h : ¬WideUnderNarrow dsc k b w)
    (packet : Packet) : OperandKept packet (.op dsc t p q .none) b := by
  intro t' p' q' z' k' x' ha hk' _ hmissing base
  cases ha
  rw [hk] at hk'
  cases hk'
  obtain ⟨hkc, -⟩ := constantOf_cases hk
  obtain ⟨-, hklt⟩ := convert_lt hb hkc
  have hxlt := hx.lt packet base
  rw [num_orOperand hk]
  refine Nat.or_lt_two_pow (Nat.lt_of_lt_of_le hxlt ?_) hklt
  apply Nat.pow_le_pow_right (by decide)
  unfold commonWidth
  split <;> rename_i hnarrow
  · by_contra hwide
    exact h ⟨rfl, Nat.not_le.mp hwide, hnarrow.2, hnarrow.1,
      (bitsMissing_eq_false_iff hb hkc).mp hmissing⟩
  · exact hw

/-- A number from `2 ^ 32` on with the bits of `b` below. -/
private theorem or_wrong {m n : Nat} (hm : m < 2 ^ 32) (hn : n < 2 ^ 32) :
    2 ^ 32 + m ||| n ≠ m ∧
      (2 ^ 32 + m) &&& (2 ^ 32 - 1 - n) = m &&& (2 ^ 32 - 1 - n) := by
  constructor
  · intro h
    have hle : 2 ^ 32 + m ≤ m := Nat.le_trans Nat.left_le_or (Nat.le_of_eq h)
    omega
  · have hlt : (2 ^ 32 + m) &&& (2 ^ 32 - 1 - n) < 2 ^ 32 :=
      Nat.lt_of_le_of_lt Nat.and_le_right (by omega)
    rw [← Nat.mod_eq_of_lt hlt, Nat.and_mod_two_pow, Nat.add_mod_left,
      Nat.mod_eq_of_lt hm, Nat.mod_eq_of_lt (by omega)]

private theorem not_keeps_wide (hx : Spans x w)
    (hk : constantOf p q = some (k, x)) (hb : b.isConstant = true)
    (h : WideUnderNarrow dsc k b w) : ¬RelEqOrKeeps (eqOrTest dsc t p q b) := by
  intro hkeeps
  obtain ⟨rfl, hwide, hkt, hbt, hsubset⟩ := h
  obtain ⟨hkc, -⟩ := constantOf_cases hk
  obtain ⟨hp, hq⟩ := constantOf_numeric hk hx.numeric
  have hcommon : commonWidth b k = 32 := if_pos ⟨hbt, hkt⟩
  obtain ⟨hblt, hklt⟩ := convert_lt hb hkc
  rw [hcommon] at hblt hklt
  have hmissing := (bitsMissing_eq_false_iff hb hkc).mpr hsubset
  have hresult : relEqOr (eqOrTest .or t p q b) =
      .eq (.op .and t x (clearMask b k) .none) (clearBits b k) := by
    have hsame : ¬(OpDsc.eq = .eq ∧
        (Data.op .or t p q .none).exprEqual b = true) := by
      intro hs
      cases b with
      | op => cases hb
      | _ => exact Bool.false_ne_true hs.2
    rw [relEqOr_eqOrTest (.inl rfl) hp hq hb, relEqOrNode, if_neg hsame,
      if_neg (by simp [hb]), if_neg (by simp)]
    simp only [hk, hmissing]
    rfl
  have hpow : 2 ^ 33 ≤ 2 ^ w := Nat.pow_le_pow_right (by decide) hwide
  obtain ⟨packet, hpacket⟩ :=
    hx.onto (2 ^ 32 + b.convertIpv6.toNat) (by omega) .start
  have htruth := hkeeps (.steady packet fun _ => false) .start
  rw [hresult, Data.eval_relational rfl, Data.eval_relational rfl,
    Eval.truth_inj] at htruth
  have hiff := beq_eq_beq.mp htruth
  have hmask : (Data.op .and t x (clearMask b k) .none).num packet .start =
      (2 ^ 32 + b.convertIpv6.toNat) &&&
        (2 ^ 32 - 1 - k.convertIpv6.toNat) := by
    rw [← hpacket, ← hcommon, ← clearMask_num hb hkc packet .start]
    rfl
  rw [Env.steady, hmask, clearBits_num hb hkc, hcommon, num_orOperand hk,
    hpacket, ← Data.convertIpv6_toNat hb packet .start] at hiff
  obtain ⟨hne, heq⟩ := or_wrong hblt hklt
  exact hne (hiff.mp heq)

private theorem keeps_test (hx : Spans x w) (hw : w ≤ 128)
    (hk : constantOf p q = some (k, x)) (hdsc : dsc = .or ∨ dsc = .xor)
    (hb : b.isConstant = true) (h : ¬WideUnderNarrow dsc k b w) :
    RelEqOrKeeps (eqOrTest dsc t p q b) := by
  obtain ⟨hp, hq⟩ := constantOf_numeric hk hx.numeric
  intro env base
  rw [relEqOr_eqOrTest hdsc hp hq hb]
  exact (relEqOrNode_agree (fun _ => orKept_test hx hw hk hdsc hb h env.packet)
    .unum .none).eval env base rfl

end

/-- `rel_eq_or` keeps the value where no constant of 32 bits is taken out of
more bits, and of a single test only there. -/
theorem relEqOr_preserves {d : Data} (hfit : d.AccessesFit) {dsc : OpDsc}
    (hdsc : dsc = .or ∨ dsc = .xor) {p q k x b : Data} {w : Nat}
    (hx : Spans x w) (hw : w ≤ 128) (hk : constantOf p q = some (k, x))
    (hb : b.isConstant = true) (t : DataType) :
    ((∀ packet, OrNarrow packet d) → RelEqOrKeeps d) ∧
      (RelEqOrKeeps (eqOrTest dsc t p q b) ↔ ¬WideUnderNarrow dsc k b w) :=
  ⟨keeps_of_narrow hfit,
    fun hkeeps h => not_keeps_wide hx hk hb h hkeeps,
    keeps_test hx hw hk hdsc hb⟩

/-- A byte with its lowest bit set, and not set. -/
theorem relEqOr_preserves_byte :
    RelEqOrKeeps (.logicalNot
      (eqOrTest .or .unum (packetAccess .unum 0 0 8) (.unum 1) (.unum 5))) ∧
    RelEqOrKeeps
      (eqOrTest .or .unum (packetAccess .unum 0 0 8) (.unum 1) (.unum 5)) := by
  have hspans := spans_packetAccess (t := .unum) (.inl rfl) 0 0 8
  have hfit : (Data.logicalNot (eqOrTest .or .unum
      (packetAccess .unum 0 0 8) (.unum 1) (.unum 5))).AccessesFit := by
    simp [Data.AccessesFit]
  obtain ⟨hkeeps, hiff⟩ := relEqOr_preserves hfit (.inl rfl) hspans
    (by decide) (p := packetAccess .unum 0 0 8) (q := .unum 1) (b := .unum 5)
    rfl rfl .unum
  constructor
  · refine hkeeps fun packet => ⟨⟨⟨⟨trivial, trivial, trivial, nofun⟩, trivial,
      trivial, nofun⟩, trivial, trivial, fun _ => ?_⟩, trivial, trivial,
      nofun⟩
    rintro _ _ _ _ _ _ ⟨⟩ ⟨⟩ _ _ _ _ base
    exact Nat.lt_of_lt_of_le (hspans.lt packet base) (by decide)
  · exact hiff.mpr fun h => absurd h.2.1 (by decide)

/-- `X | 1 == 3` for 128 bits: `2 ^ 32 + 3` is taken for 3. -/
theorem relEqOr_narrowMask :
    ¬∀ d, Data.AccessesFit d → RelEqOrKeeps d := by
  intro h
  have hspans := spans_packetAccess (t := .ipv6) (.inr rfl) 0 0 128
  have hfit : (eqOrTest .or .ipv6 (packetAccess .ipv6 0 0 128) (.unum 1)
      (.unum 3)).AccessesFit := by
    simp [Data.AccessesFit]
  exact not_keeps_wide hspans rfl rfl
    ⟨rfl, by decide, rfl, rfl, by decide⟩ (h _ hfit)

end Tcng
