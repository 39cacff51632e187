import Tcng.OpData

/-! Bits that the mask operator keeps (`mask_eval`). -/

namespace Tcng

/-- `X:n`, `X:b:c` and `X::n` (`mask_selector` of the grammar). -/
inductive Selector
  | first (n : BitVec 32)
  | inner (b c : BitVec 32)
  | last (n : BitVec 32)

namespace Selector

def b : Selector → Data
  | first n => .unum n
  | inner b _ => .unum b
  | last _ => .none

def c : Selector → Data
  | first _ => .none
  | inner _ c => .unum c
  | last n => .unum n

/-- Leading bits skipped. -/
def skipped : Selector → Nat
  | inner b _ => b.toNat
  | _ => 0

/-- Bits selected. -/
def selected : Selector → Nat
  | first n => n.toNat
  | inner _ c => c.toNat
  | last n => n.toNat

/-- Whether a number of `w` bits keeps its bit `i`. -/
def keeps (w : Nat) (s : Selector) (i : Nat) : Bool :=
  match s with
  | first n => i < w ∧ w ≤ i + n.toNat
  | inner b c => i + b.toNat < w ∧ w ≤ i + (b.toNat + c.toNat)
  | last n => i < n.toNat

end Selector

/-- Bits of an integer. -/
def Data.bits (a : Data) : Nat := if a.type = .ipv6 then 128 else 32

/-- The operator is accepted where the bits are there, and keeps them. -/
def MaskRight (a : Data) (s : Selector) : Prop :=
  if s.skipped + s.selected ≤ a.bits then
    ∃ r, maskOp a s.b s.c = .ok r ∧ ∀ packet base i,
      (r.num packet base).testBit i =
        ((a.num packet base).testBit i && s.keeps a.bits i)
  else ∃ e, maskOp a s.b s.c = .error e

/-! ## The mask -/

namespace Selector

/-- `bits`: the sum wraps. -/
def sum : Selector → BitVec 32
  | first n => n
  | inner b c => b + c
  | last n => n

/-- `upper` -/
def upper : Selector → BitVec 32
  | first n => n
  | inner _ c => c
  | last n => n

/-- The mask is moved up to the leading bits unless it is for the last ones. -/
def shift (w : Nat) (s : Selector) : Nat :=
  match s with
  | last _ => 0
  | s => w - (s.skipped + s.selected)

def mask (w : Nat) (s : Selector) : Nat := (2 ^ s.selected - 1) <<< s.shift w

theorem sum_toNat (s : Selector) :
    s.sum.toNat = (s.skipped + s.selected) % 2 ^ 32 := by
  cases s with
  | first n | last n =>
      have hn := n.isLt
      simp only [sum, skipped, selected]
      omega
  | inner b c => exact BitVec.toNat_add b c

theorem upper_toNat (s : Selector) : s.upper.toNat = s.selected := by
  cases s <;> rfl

theorem testBit_mask {w : Nat} {s : Selector}
    (h : s.skipped + s.selected ≤ w) (i : Nat) :
    (s.mask w).testBit i = s.keeps w i := by
  rw [mask, Nat.testBit_shiftLeft, Nat.testBit_two_pow_sub_one,
    Bool.eq_iff_iff, Bool.and_eq_true, decide_eq_true_iff, decide_eq_true_iff]
  cases s with
  | first n =>
      simp only [skipped, selected] at h
      simp only [skipped, selected, shift, keeps, decide_eq_true_iff]
      omega
  | inner b c =>
      simp only [skipped, selected] at h
      simp only [skipped, selected, shift, keeps, decide_eq_true_iff]
      omega
  | last n =>
      simp only [selected, shift, keeps, decide_eq_true_iff]
      omega

/-- Nothing of the mask is lost as it is moved. -/
theorem mask_lt {w : Nat} {s : Selector} (h : s.skipped + s.selected ≤ w) :
    s.mask w < 2 ^ w := by
  apply Nat.lt_pow_two_of_testBit
  intro i hi
  rw [testBit_mask h]
  cases s with
  | first n | inner b c =>
      simp only [keeps, decide_eq_false_iff_not]
      omega
  | last n =>
      simp only [skipped, selected] at h
      simp only [keeps, decide_eq_false_iff_not]
      omega

/-- `mask` for 32 bits. -/
def narrowMask (s : Selector) : BitVec 32 :=
  let low : BitVec 32 := if s.upper = 32 then .allOnes 32
    else ((1 : BitVec 32) <<< (s.upper % 32)) - 1
  match s with
  | last _ => low
  | s => low <<< ((32 - s.sum) % 32)

/-- `mask` for 128 bits. -/
def wideMask (s : Selector) : U128 :=
  let low := ((U128.ofBitVec32 1).shiftLeft s.upper).sub32 1
  match s with
  | last _ => low
  | s => low.shiftLeft (128 - s.sum)

end Selector

private theorem bits_eq (s : Selector) :
    (if s.b.type = .none then 0 else s.b.unumValue) +
      (if s.c.type = .none then 0 else s.c.unumValue) = s.sum := by
  cases s with
  | first n => exact BitVec.add_zero n
  | inner b c => rfl
  | last n => exact BitVec.zero_add n

private theorem upper_eq (s : Selector) :
    (if s.c.type = .unum then s.c else s.b).unumValue = s.upper := by
  cases s <;> rfl

/-- What `mask_eval` does on the three kinds of selectors. -/
theorem maskOp_eq {a : Data} (ha : integerNumber a = true) (s : Selector) :
    maskOp a s.b s.c =
      if a.type = .ipv6 then
        if (128 : BitVec 32).slt s.sum then
          .error (.error "mask exceeds 128 bit range")
        else unum2Data .and a (.ipv6 s.wideMask)
      else
        if (32 : BitVec 32).slt s.sum then
          .error (.error "mask exceeds 32 bit range")
        else unum2Data .and a (.unum s.narrowMask) := by
  have htypes : ¬(integerNumber a = false ∨
      (s.b.type ≠ .unum ∧ s.b.type ≠ .none) ∨
      (s.c.type ≠ .unum ∧ s.c.type ≠ .none)) := by
    cases s <;> simp [ha, Selector.b, Selector.c, Data.type]
  have hop : ¬(s.b.isOp = true ∨ s.c.isOp = true) := by
    cases s <;> simp [Selector.b, Selector.c, Data.isOp]
  rw [maskOp, if_neg htypes, if_neg hop]
  simp only [bits_eq, upper_eq]
  cases s <;> rfl

/-- The comparison is one of signed numbers. -/
private theorem slt_iff {w : BitVec 32} (hw : w.toNat < 2 ^ 31)
    (x : BitVec 32) :
    w.slt x = true ↔ w.toNat < x.toNat ∧ x.toNat < 2 ^ 31 := by
  have hx := x.isLt
  rw [BitVec.slt, decide_eq_true_eq, BitVec.toInt_eq_toNat_cond,
    BitVec.toInt_eq_toNat_cond]
  split <;> split <;> omega

/-! ## Masks within the width -/

section

variable {s : Selector}

private theorem selected_le {w : Nat} (h : s.skipped + s.selected ≤ w) :
    s.selected ≤ w := by omega

/-- What is left of the sum on the right. -/
private theorem sub_sum_toNat {w : BitVec 32}
    (h : s.skipped + s.selected ≤ w.toNat) :
    (w - s.sum).toNat = w.toNat - (s.skipped + s.selected) := by
  have hw := w.isLt
  have hsum := s.sum_toNat
  rw [BitVec.toNat_sub, hsum]
  omega

private theorem lowOnes_toNat {n : BitVec 32} (h : n.toNat ≤ 32) :
    (if n = 32 then (.allOnes 32 : BitVec 32)
      else ((1 : BitVec 32) <<< (n % 32)) - 1).toNat = 2 ^ n.toNat - 1 := by
  split
  · rename_i hn
    rw [hn]
    rfl
  · rename_i hn
    have hlt : n.toNat < 32 := by
      have hne : n.toNat ≠ 32 := fun heq => hn (BitVec.eq_of_toNat_eq heq)
      omega
    have hmod : (n % 32).toNat = n.toNat := by
      rw [BitVec.toNat_umod]
      exact Nat.mod_eq_of_lt hlt
    have hpow : 2 ^ n.toNat < 2 ^ 32 := Nat.pow_lt_pow_right (by decide) hlt
    have hpos : 0 < 2 ^ n.toNat := Nat.two_pow_pos _
    have hshift : ((1 : BitVec 32) <<< (n % 32)).toNat = 2 ^ n.toNat := by
      rw [BitVec.shiftLeft_eq', BitVec.toNat_shiftLeft, hmod,
        Nat.shiftLeft_eq]
      exact (Nat.mod_eq_of_lt (by simpa using hpow)).trans (Nat.one_mul _)
    rw [BitVec.toNat_sub, hshift]
    simp only [BitVec.ofNat_eq_ofNat, BitVec.toNat_ofNat]
    omega

/-- The shift leaves nothing out; one by the whole width is taken as none, but
then no bit is selected. -/
private theorem shiftLeft_toNat {m : BitVec 32}
    (hm : m.toNat = 2 ^ s.selected - 1) (h : s.skipped + s.selected ≤ 32)
    (hlt : m.toNat <<< (32 - (s.skipped + s.selected)) < 2 ^ 32) :
    (m <<< ((32 - s.sum) % 32)).toNat =
      m.toNat <<< (32 - (s.skipped + s.selected)) := by
  have hsub : (32 - s.sum).toNat = 32 - (s.skipped + s.selected) :=
    sub_sum_toNat h
  rw [BitVec.shiftLeft_eq', BitVec.toNat_shiftLeft, BitVec.toNat_umod, hsub]
  by_cases hzero : s.selected = 0
  · have hnone : m.toNat = 0 := by rw [hm, hzero]; rfl
    simp only [hnone, Nat.zero_shiftLeft, Nat.zero_mod]
  · have hmod : (32 - (s.skipped + s.selected)) % (32 : BitVec 32).toNat =
        32 - (s.skipped + s.selected) :=
      Nat.mod_eq_of_lt (show _ < 32 by omega)
    rw [hmod, Nat.mod_eq_of_lt hlt]

private theorem narrowMask_toNat (h : s.skipped + s.selected ≤ 32) :
    s.narrowMask.toNat = s.mask 32 := by
  have hlow := lowOnes_toNat (n := s.upper)
    (by rw [s.upper_toNat]; exact selected_le h)
  rw [s.upper_toNat] at hlow
  have hlt := s.mask_lt h
  cases s with
  | first n | inner b c =>
      rw [Selector.mask, ← hlow] at hlt
      rw [Selector.mask, ← hlow]
      exact shiftLeft_toNat hlow h hlt
  | last n => exact hlow

private theorem wideOnes_toNat {n : BitVec 32} (h : n.toNat ≤ 128) :
    (((U128.ofBitVec32 1).shiftLeft n).sub32 1).toNat = 2 ^ n.toNat - 1 := by
  have hpos : 0 < 2 ^ n.toNat := Nat.two_pow_pos _
  have hone : (1 : BitVec 32).toNat = 1 := rfl
  rw [U128.sub32_eq, U128.toNat_sub_mod, U128.toNat_shiftLeft,
    U128.toNat_ofBitVec32, hone, Nat.one_mul]
  rcases Nat.lt_or_eq_of_le h with hlt | heq
  · have hpow : 2 ^ n.toNat < 2 ^ 128 := Nat.pow_lt_pow_right (by decide) hlt
    omega
  · rw [heq]
    rfl

private theorem wideMask_toNat (h : s.skipped + s.selected ≤ 128) :
    s.wideMask.toNat = s.mask 128 := by
  have hlow := wideOnes_toNat (n := s.upper)
    (by rw [s.upper_toNat]; exact selected_le h)
  rw [s.upper_toNat] at hlow
  have hlt := s.mask_lt h
  have hsub : (128 - s.sum).toNat = 128 - (s.skipped + s.selected) :=
    sub_sum_toNat h
  have hmoved := U128.toNat_shiftLeft
    (((U128.ofBitVec32 1).shiftLeft s.upper).sub32 1) (128 - s.sum)
  rw [hsub, hlow] at hmoved
  cases s with
  | first n | inner b c =>
      rw [Selector.mask, Nat.shiftLeft_eq] at hlt
      rw [Selector.mask, Nat.shiftLeft_eq, ← Nat.mod_eq_of_lt hlt]
      exact hmoved
  | last n => exact hlow

end

/-! ## Acceptance -/

private theorem mixTypes_mask {a m : Data}
    (hm : m.type = .unum ∨ m.type = a.type) :
    mixTypes .and a m = .ok a.type := by
  unfold mixTypes
  rcases hm with hm | hm
  · split
    · rfl
    split
    · rename_i hne hunum
      exact absurd (hunum.trans hm.symm) hne
    · rfl
  · rw [if_pos hm.symm]

private theorem toIpv6_ok {d : Data} (h : integerNumber d = true)
    (hop : ¬d.isOp = true) : ∃ x, d.toIpv6 = .ok x := by
  cases d with
  | unum n | ipv4 n => exact ⟨.ofBitVec32 n, rfl⟩
  | ipv6 n => exact ⟨n, rfl⟩
  | op => exact absurd rfl hop
  | _ => cases h

/-- Nothing goes wrong once the mask is there. -/
private theorem andData_ok {a m : Data} (ha : integerNumber a = true)
    (hm : integerNumber m = true) (ht : m.type = .unum ∨ m.type = a.type) :
    ∃ r, unum2Data .and a m = .ok r := by
  by_cases hop : a.isOp = true ∨ m.isOp = true
  · exact ⟨.op .and a.type a m .none, by
      simp [unum2Data, ha, hm, mixTypes_mask ht, hop, bind, Except.bind, pure,
        Except.pure]⟩
  obtain ⟨hopa, hopm⟩ := not_or.mp hop
  by_cases hwide : a.type = .ipv6
  · obtain ⟨x, hx⟩ := toIpv6_ok ha hopa
    obtain ⟨y, hy⟩ := toIpv6_ok hm hopm
    exact ⟨.ipv6 (wideOp .and x y), by
      simp [unum2Data, ha, hm, mixTypes_mask ht, hop, hwide, hx, hy, bind,
        Except.bind, pure, Except.pure]⟩
  · refine ⟨Op.Number.data ⟨Op.mixTypes a.number m.number,
      Op.unum2Op .and a.number.unum m.number.unum⟩, ?_⟩
    simp [unum2Data, ha, hm, mixTypes_mask ht, hop, hwide, Op.unum2Eval, bind,
      Except.bind, pure, Except.pure]

/-- The mask, as a constant of the type the number has. -/
def Selector.maskData (s : Selector) (a : Data) : Data :=
  if a.type = .ipv6 then .ipv6 s.wideMask else .unum s.narrowMask

/-- The width, as a word. -/
def Data.bitsWord (a : Data) : BitVec 32 := if a.type = .ipv6 then 128 else 32

private theorem bitsWord_toNat (a : Data) : a.bitsWord.toNat = a.bits := by
  unfold Data.bitsWord Data.bits
  split <;> rfl

private theorem bits_le (a : Data) : a.bits ≤ 128 := by
  unfold Data.bits
  split <;> decide

private theorem maskData_num {a : Data} {s : Selector}
    (h : s.skipped + s.selected ≤ a.bits) (packet : Packet) (base : Base) :
    (s.maskData a).num packet base = s.mask a.bits := by
  unfold Selector.maskData Data.bits at *
  split <;> rename_i hwide
  · rw [if_pos hwide] at h
    exact wideMask_toNat h
  · rw [if_neg hwide] at h
    exact narrowMask_toNat h

theorem maskOp_rejected {a : Data} (ha : integerNumber a = true)
    {s : Selector} (h : a.bitsWord.slt s.sum = true) :
    ∃ e, maskOp a s.b s.c = .error e := by
  rw [maskOp_eq ha]
  unfold Data.bitsWord at h
  split <;> rename_i hwide
  · rw [if_pos hwide] at h
    exact ⟨_, if_pos h⟩
  · rw [if_neg hwide] at h
    exact ⟨_, if_pos h⟩

theorem maskOp_accepted {a : Data} (ha : integerNumber a = true)
    {s : Selector} (h : ¬a.bitsWord.slt s.sum = true) :
    ∃ r, maskOp a s.b s.c = .ok r ∧
      unum2Data .and a (s.maskData a) = .ok r := by
  have hand : maskOp a s.b s.c = unum2Data .and a (s.maskData a) := by
    rw [maskOp_eq ha]
    unfold Data.bitsWord at h
    unfold Selector.maskData
    split <;> rename_i hwide
    · rw [if_pos hwide] at h
      exact if_neg h
    · rw [if_neg hwide] at h
      exact if_neg h
  have hmask : integerNumber (s.maskData a) = true ∧
      ((s.maskData a).type = .unum ∨ (s.maskData a).type = a.type) := by
    unfold Selector.maskData
    split <;> rename_i hwide
    · exact ⟨rfl, .inr hwide.symm⟩
    · exact ⟨rfl, .inl rfl⟩
  obtain ⟨r, hr⟩ := andData_ok ha hmask.1 hmask.2
  exact ⟨r, hand.trans hr, hr⟩

/-- The check is right as long as the sum stays clear of the sign, and does not
wrap to a number within the width. -/
theorem maskOp_right_iff {a : Data} (ha : integerNumber a = true)
    (s : Selector) :
    MaskRight a s ↔
      s.skipped + s.selected < 2 ^ 31 ∨
        (2 ^ 32 + a.bits < s.skipped + s.selected ∧
          s.skipped + s.selected < 2 ^ 32 + 2 ^ 31) := by
  have hbits := bits_le a
  have hslt := slt_iff (w := a.bitsWord) (by rw [bitsWord_toNat]; omega) s.sum
  rw [bitsWord_toNat, s.sum_toNat] at hslt
  have hskipped : s.skipped < 2 ^ 32 := by
    cases s with
    | inner b c => exact b.isLt
    | _ => exact Nat.two_pow_pos 32
  have hselected : s.selected < 2 ^ 32 := by
    rw [← s.upper_toNat]
    exact s.upper.isLt
  by_cases hfits : s.skipped + s.selected ≤ a.bits
  · rw [MaskRight, if_pos hfits]
    refine iff_of_true ?_ (.inl (by omega))
    obtain ⟨r, hr, hand⟩ := maskOp_accepted ha (s := s) (by rw [hslt]; omega)
    refine ⟨r, hr, fun packet base i => ?_⟩
    rw [num_andData hand, Nat.testBit_and, maskData_num hfits,
      s.testBit_mask hfits]
  · rw [MaskRight, if_neg hfits]
    constructor
    · rintro ⟨e, he⟩
      have hrejected : a.bitsWord.slt s.sum = true := by
        by_contra haccepted
        obtain ⟨r, hr, -⟩ := maskOp_accepted ha haccepted
        rw [he] at hr
        cases hr
      rw [hslt] at hrejected
      omega
    · intro hsum
      apply maskOp_rejected ha
      rw [hslt]
      omega

/-- `0xffff00ff:8:8` -/
theorem maskOp_right_inner :
    MaskRight (.unum 0xffff00ff) (.inner 8 8) :=
  (maskOp_right_iff rfl (.inner 8 8)).mpr (.inl (by decide))

/-- `1:0xffffffff:1`: the sum wraps to zero. -/
theorem maskOp_sumWraps :
    ¬∀ a, integerNumber a = true → ∀ s, MaskRight a s := by
  intro h
  obtain ⟨e, he⟩ := h (.unum 1) rfl (.inner 0xffffffff 1)
  cases he

end Tcng
