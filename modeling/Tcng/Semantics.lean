import Mathlib.Data.Nat.Bitwise
import Tcng.Data
import Tcng.Lib.ShortCircuit

/-! The meaning of an if-expression on a packet. -/

namespace Tcng

open ShortCircuit

/-- The packet as seen from each field root, bit by bit. -/
abbrev Packet := Nat → Nat → Bool

/-- Where accesses are relative to; the offset counts bits. -/
structure Base where
  root : Nat
  offset : Nat

def Base.start : Base := ⟨0, 0⟩

/-- The big-endian number in `length` bits from `start` on. -/
def readBits (bits : Nat → Bool) (start length : Nat) : Nat :=
  Nat.ofBits fun i : Fin length => bits (start + (length - 1 - i))

theorem testBit_readBits (bits : Nat → Bool) (start length i : Nat) :
    (readBits bits start length).testBit i =
      (decide (i < length) && bits (start + (length - 1 - i))) := by
  by_cases h : i < length
  · simp [readBits, Nat.testBit_ofBits_lt _ _ h, h]
  · simp [readBits, Nat.testBit_ofBits_ge _ _ (Nat.le_of_not_lt h), h]

theorem readBits_lt (bits : Nat → Bool) (start length : Nat) :
    readBits bits start length < 2 ^ length := Nat.ofBits_lt_two_pow _

/-- There are packets with any number in any place. -/
theorem readBits_surjective (start : Nat) {length v : Nat}
    (h : v < 2 ^ length) : ∃ bits, readBits bits start length = v := by
  refine ⟨fun k => v.testBit (length - 1 - (k - start)), ?_⟩
  apply Nat.eq_of_testBit_eq
  intro i
  rw [testBit_readBits]
  by_cases hi : i < length
  · have hindex : length - 1 - (start + (length - 1 - i) - start) = i := by
      omega
    rw [decide_eq_true hi, hindex, Bool.true_and]
  · have hlarge : v < 2 ^ i :=
      Nat.lt_of_lt_of_le h (Nat.pow_le_pow_right (by decide) (by omega))
    rw [decide_eq_false hi, Bool.false_and, Nat.testBit_lt_two_pow hlarge]

namespace Data

/-- Bits of a numeric value, following `mix_types`. -/
def width : Data → Nat
  | ipv6 _ => 128
  | op .access _ _ _ (unum n) => if n = 128 then 128 else 32
  | op dsc _ a b _ =>
      match dsc with
      | .plus | .minus | .mult | .div | .mod | .and | .or | .xor =>
          max a.width b.width
      | .unaryMinus | .not | .shiftLeft | .shiftRight | .offset
      | .fieldRoot => a.width
      | _ => 32
  | _ => 32

def rootOr : Data → Nat → Nat
  | fieldRoot offsetGroup, _ => offsetGroup
  | _, current => current

end Data

def relOp (dsc : OpDsc) (x y : Nat) : Bool :=
  match dsc with
  | .eq => x == y
  | .ne => x != y
  | .gt => decide (y < x)
  | .ge => decide (y ≤ x)
  | .lt => decide (x < y)
  | .le => decide (x ≤ y)
  | _ => false

/-- Arithmetic in `width` bits. -/
def numOp (dsc : OpDsc) (width x y : Nat) : Nat :=
  match dsc with
  | .plus => (x + y) % 2 ^ width
  | .minus => (x + (2 ^ width - y % 2 ^ width)) % 2 ^ width
  | .unaryMinus => (2 ^ width - x % 2 ^ width) % 2 ^ width
  | .mult => x * y % 2 ^ width
  | .div => x / y
  | .mod => x % y
  | .not => 2 ^ width - 1 - x
  | .and => x &&& y
  | .or => x ||| y
  | .xor => x ^^^ y
  | .shiftLeft => (x <<< y) % 2 ^ width
  | .shiftRight => x >>> y
  | dsc => (relOp dsc x y).toNat

namespace Data

def num (packet : Packet) : Data → Base → Nat
  | unum n, _ => n.toNat
  | ipv4 n, _ => n.toNat
  | ipv6 n, _ => n.toNat
  | op .access _ a b c, base =>
      readBits (packet (a.rootOr base.root))
        (base.offset + 8 * b.num packet base) (c.num packet base)
  | op .offset _ a b _, base =>
      a.num packet { base with offset := base.offset + 8 * b.num packet base }
  | op .fieldRoot _ a b _, base => a.num packet ⟨b.rootOr base.root, 0⟩
  | op dsc _ a b _, base =>
      numOp dsc (max a.width b.width) (a.num packet base) (b.num packet base)
  | _, _ => 0

theorem convertIpv6_toNat {d : Data} (h : d.isConstant = true)
    (packet : Packet) (base : Base) :
    d.convertIpv6.toNat = d.num packet base := by
  cases d with
  | unum n => exact U128.toNat_ofBitVec32 n
  | ipv6 n => rfl
  | _ => cases h

end Data

/-- A packet and the results of conform tests. A result may depend on what was
counted before; where it does not, the environment is `steady`. -/
structure Env where
  packet : Packet
  conforms : List Bucket → Bucket → Bool

def Env.steady (packet : Packet) (conforms : Bucket → Bool) : Env :=
  ⟨packet, fun _ => conforms⟩

/-- Outcome of an evaluation that has counted some buckets already, together
with everything counted when it ends. -/
abbrev Eval := ShortCircuit.Eval (List Bucket) Decision

namespace Data

def eval (env : Env) : Data → Base → Eval
  | decision d, _ => .decide d
  | op .logicalOr _ a b _, base => (a.eval env base).or (b.eval env base)
  | op .logicalAnd _ a b _, base => (a.eval env base).and (b.eval env base)
  | op .logicalNot _ a _ _, base => (a.eval env base).not
  | op .conform _ (police p) _ _, _ => fun counted =>
      (counted, .truth (env.conforms counted p))
  | op .count _ (police p) _ _, _ => fun counted =>
      (counted ++ [p], .truth true)
  | op .offset _ a b _, base =>
      a.eval env
        { base with offset := base.offset + 8 * b.num env.packet base }
  | op .fieldRoot _ a b _, base => a.eval env ⟨b.rootOr base.root, 0⟩
  | d, base => .truth (decide (d.num env.packet base ≠ 0))

/-- Outcome of a whole if-expression: nothing has been counted yet. -/
def outcome (env : Env) (d : Data) : List Bucket × Result Decision :=
  d.eval env .start []

section

variable (env : Env) (base : Base)

@[simp] theorem eval_logicalOr (t : DataType) (a b c : Data) :
    (op .logicalOr t a b c).eval env base =
      (a.eval env base).or (b.eval env base) := by
  simp only [eval]

@[simp] theorem eval_logicalAnd (t : DataType) (a b c : Data) :
    (op .logicalAnd t a b c).eval env base =
      (a.eval env base).and (b.eval env base) := by
  simp only [eval]

@[simp] theorem eval_logicalNot (t : DataType) (a b c : Data) :
    (op .logicalNot t a b c).eval env base = (a.eval env base).not := by
  simp only [eval]

@[simp] theorem eval_decision (d : Decision) :
    (decision d).eval env base = .decide d := rfl

@[simp] theorem eval_unum (n : BitVec 32) :
    (unum n).eval env base = .truth (decide (n ≠ 0)) := by
  have hzero : n.toNat ≠ 0 ↔ n ≠ 0 := by simp [← BitVec.toNat_inj]
  simp only [eval, num, hzero]

end

/-! Expressions `exprEqual` identifies cannot be told apart. -/

private theorem exprEqual_rootOr {d e : Data} (h : d.exprEqual e = true)
    (current : Nat) : d.rootOr current = e.rootOr current := by
  obtain rfl | ⟨_, _, _, _, _, _, _, _, _, rfl, rfl, _⟩ := exprEqual_cases h
  · rfl
  · rfl

theorem exprEqual_width {d e : Data} (h : d.exprEqual e = true) :
    d.width = e.width := by
  induction d generalizing e with
  | op dsc t a b c iha ihb ihc =>
      obtain rfl | ⟨dsc', t', t'', x, y, z, a', b', c', hd, rfl, ha, hb, hc⟩ :=
        exprEqual_cases h
      · rfl
      · cases hd
        have hwa := iha ha
        have hwb := ihb hb
        obtain rfl | ⟨_, _, _, _, _, _, _, _, _, rfl, rfl, _⟩ :=
          exprEqual_cases hc
        · cases dsc
          case access => cases c <;> rfl
          all_goals simp only [width, hwa, hwb]
        · cases dsc
          case access => rfl
          all_goals simp only [width, hwa, hwb]
  | _ =>
      obtain rfl | ⟨_, _, _, _, _, _, _, _, _, hd, _⟩ := exprEqual_cases h
      · rfl
      · cases hd

theorem exprEqual_num {d e : Data} (h : d.exprEqual e = true)
    (packet : Packet) : d.num packet = e.num packet := by
  induction d generalizing e with
  | op dsc t a b c iha ihb ihc =>
      obtain rfl | ⟨dsc', t', t'', x, y, z, a', b', c', hd, rfl, ha, hb, hc⟩ :=
        exprEqual_cases h
      · rfl
      · cases hd
        funext base
        have hwa := exprEqual_width ha
        have hwb := exprEqual_width hb
        have hra := exprEqual_rootOr ha
        have hrb := exprEqual_rootOr hb
        cases dsc <;>
          simp only [num, iha ha, ihb hb, ihc hc, hwa, hwb, hra, hrb]
  | _ =>
      obtain rfl | ⟨_, _, _, _, _, _, _, _, _, hd, _⟩ := exprEqual_cases h
      · rfl
      · cases hd

theorem exprEqual_eval {d e : Data} (h : d.exprEqual e = true) (env : Env) :
    d.eval env = e.eval env := by
  induction d generalizing e with
  | op dsc t a b c iha ihb ihc =>
      have hnum := exprEqual_num h env.packet
      obtain rfl | ⟨dsc', t', t'', x, y, z, a', b', c', hd, rfl, ha, hb, hc⟩ :=
        exprEqual_cases h
      · rfl
      · cases hd
        funext base
        have hnb := exprEqual_num hb env.packet
        have hrb := exprEqual_rootOr hb
        cases dsc
        case conform | count =>
          obtain rfl | ⟨_, _, _, _, _, _, _, _, _, rfl, rfl, _⟩ :=
            exprEqual_cases ha
          · cases a <;> simp only [eval, hnum]
          · simp only [eval, hnum]
        all_goals simp only [eval, iha ha, ihb hb, hnb, hrb, hnum]
  | _ =>
      obtain rfl | ⟨_, _, _, _, _, _, _, _, _, hd, _⟩ := exprEqual_cases h
      · rfl
      · cases hd

end Data

end Tcng
