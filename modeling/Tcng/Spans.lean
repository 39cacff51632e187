import Tcng.Formula

/-! Expressions that can be worth every number of a width. -/

namespace Tcng

open Data

structure Spans (x : Data) (w : Nat) : Prop where
  numeric : x.numeric = true
  isOp : x.isOp = true
  type : x.type = .unum ∨ x.type = .ipv6
  lt : ∀ packet base, x.num packet base < 2 ^ w
  onto : ∀ v < 2 ^ w, ∀ base, ∃ packet, x.num packet base = v

namespace Spans

variable {x : Data} {w : Nat}

theorem integerNumber (h : Spans x w) : integerNumber x = true :=
  integerNumber_of_type h.type

/-- What holds on all packets holds of all numbers. -/
theorem forall_num (h : Spans x w) {P : Nat → Prop} :
    (∀ packet base, P (x.num packet base)) ↔ ∀ v < 2 ^ w, P v := by
  constructor
  · intro hall v hv
    obtain ⟨packet, hpacket⟩ := h.onto v hv .start
    exact hpacket ▸ hall packet .start
  · intro hall packet base
    exact hall _ (h.lt packet base)

end Spans

/-- An access of `size` bits to a place known beforehand. -/
abbrev packetAccess (t : DataType) (root : Nat) (offset size : BitVec 32) :
    Data :=
  .op .access t (.fieldRoot root) (.unum offset) (.unum size)

theorem spans_packetAccess {t : DataType} (ht : t = .unum ∨ t = .ipv6)
    (root : Nat) (offset size : BitVec 32) :
    Spans (packetAccess t root offset size) size.toNat where
  numeric := rfl
  isOp := rfl
  type := ht
  lt _ _ := readBits_lt _ _ _
  onto v hv base := by
    obtain ⟨bits, hbits⟩ :=
      readBits_surjective (base.offset + 8 * offset.toNat) hv
    exact ⟨fun _ => bits, hbits⟩

/-! ## Bounds -/

namespace Data

/-- Accesses have known sizes, of at most 128 bits. -/
def AccessesFit : Data → Prop
  | op dsc _ a b c => AccessesFit a ∧ AccessesFit b ∧ AccessesFit c ∧
      (dsc = .access → ∃ n : BitVec 32, c = .unum n ∧ n.toNat ≤ 128)
  | _ => True

theorem width_le (d : Data) : d.width ≤ 128 := by
  induction d with
  | op dsc t a b c iha ihb ihc =>
      cases dsc
      case access =>
        cases c with
        | unum n =>
            simp only [width]
            split <;> decide
        | _ => exact (by decide : 32 ≤ 128)
      all_goals simp only [width]; omega
  | ipv6 => exact Nat.le_refl 128
  | _ => exact (by decide : 32 ≤ 128)

private theorem bool_toNat_lt (b : Bool) : b.toNat < 2 ^ 128 :=
  Nat.lt_of_le_of_lt b.toNat_le (by decide)

private theorem numOp_lt {x y w : Nat} (dsc : OpDsc) (hw : w ≤ 128)
    (hx : x < 2 ^ 128) (hy : y < 2 ^ 128) : numOp dsc w x y < 2 ^ 128 := by
  have hmod (n : Nat) : n % 2 ^ w < 2 ^ 128 :=
    Nat.lt_of_lt_of_le (Nat.mod_lt n (Nat.two_pow_pos w))
      (Nat.pow_le_pow_right (by decide) hw)
  have hpow : 2 ^ w ≤ 2 ^ 128 := Nat.pow_le_pow_right (by decide) hw
  cases dsc with
  | plus | minus | unaryMinus | mult | shiftLeft => exact hmod _
  | div => exact Nat.lt_of_le_of_lt (Nat.div_le_self x y) hx
  | mod => exact Nat.lt_of_le_of_lt (Nat.mod_le x y) hx
  | not => exact Nat.lt_of_lt_of_le (show 2 ^ w - 1 - x < 2 ^ w by
      have hpos := Nat.two_pow_pos w
      omega) hpow
  | and => exact Nat.lt_of_le_of_lt Nat.and_le_left hx
  | or => exact Nat.or_lt_two_pow hx hy
  | xor => exact Nat.xor_lt_two_pow hx hy
  | shiftRight => exact Nat.lt_of_le_of_lt (Nat.shiftRight_le x y) hx
  | _ => exact bool_toNat_lt _

/-- No number has more than 128 bits. -/
theorem num_lt {d : Data} (h : AccessesFit d) (packet : Packet)
    (base : Base) : d.num packet base < 2 ^ 128 := by
  induction d generalizing base with
  | unum n | ipv4 n =>
      exact Nat.lt_of_lt_of_le n.isLt (Nat.pow_le_pow_right (by decide)
        (by decide))
  | ipv6 n => exact n.toNat_lt
  | op dsc t a b c iha ihb ihc =>
      obtain ⟨ha, hb, hc, haccess⟩ := h
      have hw : max a.width b.width ≤ 128 :=
        Nat.max_le.mpr ⟨a.width_le, b.width_le⟩
      cases dsc
      case access =>
        obtain ⟨n, rfl, hn⟩ := haccess rfl
        exact Nat.lt_of_lt_of_le (readBits_lt _ _ _)
          (Nat.pow_le_pow_right (by decide) hn)
      case offset => exact iha ha _
      case fieldRoot => exact iha ha _
      all_goals exact numOp_lt _ hw (iha ha base) (ihb hb base)
  | _ => exact Nat.two_pow_pos 128

end Data

end Tcng
