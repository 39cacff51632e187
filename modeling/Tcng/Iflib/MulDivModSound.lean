import Tcng.Iflib.MulDivMod

/-! When rewriting products, quotients and remainders keeps the value. -/

namespace Tcng

open Op

namespace Arith

/-- What is read at each field root, offset and size. -/
abbrev Assignment := Nat → BitVec 32 → BitVec 32 → BitVec 32

def unaryEval (dsc : OpDsc) (x : Number) : Except Error Number :=
  match dsc with
  | .not | .logicalNot => .ok (unum1Eval dsc x)
  | .unaryMinus => .ok ⟨x.ipv4, -x.unum⟩
  | _ => .error (.error "constant expression required")

def truthOf (b : Bool) : Number := dataUnum (if b then 1 else 0)

/-- `op_binary` makes an `op_mask` of the quotient of an address. -/
def binaryEval (dsc : OpDsc) (x y : Number) : Except Error Number :=
  match dsc with
  | .div => if x.ipv4 then typeError2 .div x y else divEval x y
  | .mask => maskEval x y
  | .logicalAnd => .ok (truthOf (x.unum != 0 && y.unum != 0))
  | .logicalOr => .ok (truthOf (x.unum != 0 || y.unum != 0))
  | dsc => Op.binaryEval dsc x y

def accessEval (assign : Assignment) (dsc : OpDsc) (a : Data)
    (offset : Number) (size : BitVec 32) : Except Error Number :=
  match dsc, a with
  | .access, .fieldRoot root => .ok (dataUnum (assign root offset.unum size))
  | _, _ => .error (.error "constant expression required")

/-- An operator, given what its operands `a` and `b` are worth. -/
def nodeEval (assign : Assignment) (dsc : OpDsc) (t : DataType) (a b c : Data)
    (x y : Except Error Number) : Except Error Number :=
  if t = .unum ∨ t = .ipv4 ∨ t = .ipv6 then
    match c with
    | .none =>
        if b = .none then do
          let x ← x
          unaryEval dsc x
        else do
          let x ← x
          let y ← y
          binaryEval dsc x y
    | .unum size => do
        let offset ← y
        accessEval assign dsc a offset size
    | _ => .error (.error "constant expression required")
  else .error (.typeError2 dsc a.type b.type)

/-- The value of an expression over accesses and constants of 32 bits; all
operands are evaluated. -/
def evaluate (assign : Assignment) : Data → Except Error Number
  | .unum n => .ok (dataUnum n)
  | .ipv4 n => .ok ⟨true, n⟩
  | .op dsc t a b c =>
      nodeEval assign dsc t a b c (evaluate assign a) (evaluate assign b)
  | _ => .error (.error "constant expression required")

variable {assign : Assignment}

/-- What an operator with a value is like. -/
inductive Node (assign : Assignment) (a b : Data) (x y : Except Error Number) :
    OpDsc → Data → Number → Prop
  | access {root size offset} (ha : a = .fieldRoot root) (hy : y = .ok offset) :
      Node assign a b x y .access (.unum size)
        (dataUnum (assign root offset.unum size))
  | unary {dsc m v} (hb : b = .none) (hx : x = .ok m)
      (hv : unaryEval dsc m = .ok v) : Node assign a b x y dsc .none v
  | binary {dsc m n v} (hb : b ≠ .none) (hx : x = .ok m) (hy : y = .ok n)
      (hv : binaryEval dsc m n = .ok v) : Node assign a b x y dsc .none v

theorem nodeEval_iff {dsc : OpDsc} {t : DataType} {a b c : Data}
    {x y : Except Error Number} {v : Number} :
    nodeEval assign dsc t a b c x y = .ok v ↔
      (t = .unum ∨ t = .ipv4 ∨ t = .ipv6) ∧ Node assign a b x y dsc c v := by
  constructor
  · intro h
    by_cases ht : t = .unum ∨ t = .ipv4 ∨ t = .ipv6
    swap
    · simp only [nodeEval, if_neg ht] at h
      cases h
    refine ⟨ht, ?_⟩
    simp only [nodeEval, if_pos ht] at h
    cases c with
    | unum size =>
        obtain ⟨offset, hy, h⟩ := bind_eq_ok.mp h
        simp only [accessEval] at h
        split at h
        · cases h
          exact .access rfl hy
        · cases h
    | none =>
        by_cases hb : b = .none
        · simp only [if_pos hb] at h
          obtain ⟨m, hx, h⟩ := bind_eq_ok.mp h
          exact .unary hb hx h
        · simp only [if_neg hb] at h
          obtain ⟨m, hx, h⟩ := bind_eq_ok.mp h
          obtain ⟨n, hy, h⟩ := bind_eq_ok.mp h
          exact .binary hb hx hy h
    | _ => cases h
  · rintro ⟨ht, hnode⟩
    simp only [nodeEval, if_pos ht]
    cases hnode with
    | access ha hy =>
        rw [ha, hy]
        rfl
    | unary hb hx hv =>
        simp only [if_pos hb, hx]
        exact hv
    | binary hb hx hy hv =>
        simp only [if_neg hb, hx, hy]
        exact hv

theorem evaluate_type {d : Data} {v : Number}
    (h : evaluate assign d = .ok v) : integerNumber d = true := by
  cases d with
  | unum | ipv4 => rfl
  | op dsc t a b c =>
      rw [evaluate, nodeEval_iff] at h
      obtain ⟨ht, -⟩ := h
      rcases ht with rfl | rfl | rfl <;> rfl
  | _ => cases h

/-- The operands of an operator that takes two of them. -/
theorem evaluate_operands {dsc : OpDsc} {t : DataType} {a b c : Data}
    {v : Number} (haccess : dsc ≠ .access)
    (hunary : ∀ m w, unaryEval dsc m ≠ .ok w)
    (h : evaluate assign (.op dsc t a b c) = .ok v) :
    c = .none ∧ ∃ x y, evaluate assign a = .ok x ∧
      evaluate assign b = .ok y ∧ binaryEval dsc x y = .ok v := by
  rw [evaluate, nodeEval_iff] at h
  obtain ⟨-, hnode⟩ := h
  cases hnode with
  | access => exact absurd rfl haccess
  | unary hb hx hv => exact absurd hv (hunary _ _)
  | binary hb hx hy hv => exact ⟨rfl, _, _, hx, hy, hv⟩

/-- The operands of `*`, `/` and `%`. -/
theorem evaluate_binary {dsc : OpDsc} {t : DataType} {a b c : Data}
    {v : Number} (hdsc : dsc = .mult ∨ dsc = .div ∨ dsc = .mod)
    (h : evaluate assign (.op dsc t a b c) = .ok v) :
    c = .none ∧ ∃ x y, evaluate assign a = .ok x ∧
      evaluate assign b = .ok y ∧ binaryEval dsc x y = .ok v := by
  rcases hdsc with rfl | rfl | rfl <;>
    exact evaluate_operands (fun h => nomatch h) (fun _ _ h => nomatch h) h

private theorem exprEqual_leaf {d e : Data} (h : d.exprEqual e = true)
    (hd : d.isOp = false) : d = e := by
  obtain rfl | ⟨_, _, _, _, _, _, _, _, _, rfl, _⟩ := Data.exprEqual_cases h
  · rfl
  · cases hd

private theorem node_exprEqual {dsc : OpDsc} {a b c a' b' c' : Data}
    {x y x' y' : Except Error Number} {v w : Number}
    (ha : a.exprEqual a' = true) (hb : b.exprEqual b' = true)
    (hc : c.exprEqual c' = true)
    (hx : ∀ {m n}, x = .ok m → x' = .ok n → m = n)
    (hy : ∀ {m n}, y = .ok m → y' = .ok n → m = n)
    (hv : Node assign a b x y dsc c v)
    (hw : Node assign a' b' x' y' dsc c' w) : v = w := by
  have hleaf : c.isOp = false := by cases hv <;> rfl
  cases exprEqual_leaf hc hleaf
  cases hv with
  | access hroot hoffset =>
      subst hroot
      cases hw with
      | access hroot' hoffset' =>
          rw [hroot'] at ha
          cases exprEqual_leaf ha rfl
          rw [hy hoffset hoffset']
  | unary hnone hm heval =>
      subst hnone
      cases exprEqual_leaf hb rfl
      cases hw with
      | unary _ hm' heval' =>
          rw [hx hm hm'] at heval
          exact Except.ok.inj (heval.symm.trans heval')
      | binary hne => exact absurd rfl hne
  | binary hne hm hn heval =>
      cases hw with
      | unary hnone =>
          subst hnone
          rw [exprEqual_leaf (Data.exprEqual_symm hb) rfl] at hne
          exact absurd rfl hne
      | binary _ hm' hn' heval' =>
          rw [hx hm hm', hy hn hn'] at heval
          exact Except.ok.inj (heval.symm.trans heval')

/-- Expressions `expr_equal` identifies differ in types only. -/
theorem exprEqual_evaluate {d e : Data} (h : d.exprEqual e = true)
    {v w : Number} (hv : evaluate assign d = .ok v)
    (hw : evaluate assign e = .ok w) : v = w := by
  induction d generalizing e v w with
  | op dsc t a b c iha ihb ihc =>
      obtain rfl | ⟨dsc', t', t'', a₁, b₁, c₁, a', b', c', hd, rfl, ha, hb, hc⟩ :=
        Data.exprEqual_cases h
      · exact Except.ok.inj (hv.symm.trans hw)
      cases hd
      rw [evaluate, nodeEval_iff] at hv hw
      exact node_exprEqual ha hb hc (iha ha) (ihb hb) hv.2 hw.2
  | _ =>
      obtain rfl | ⟨_, _, _, _, _, _, _, _, _, hd, _⟩ := Data.exprEqual_cases h
      · exact Except.ok.inj (hv.symm.trans hw)
      · cases hd

/-! ## Arithmetic of the helpers -/

private theorem odd_iff (v : BitVec 32) : v.getLsbD 0 = true ↔ v.toNat % 2 = 1 := by
  rw [← BitVec.testBit_toNat, Nat.testBit_zero, decide_eq_true_eq]

private theorem two_pow_mod (n : Nat) : 2 ^ n % 2 = 1 ↔ n = 0 := by
  cases n with
  | zero => simp
  | succ n => simp [Nat.pow_succ, Nat.mul_mod_left]

private theorem log2Loop_eq_some {v : BitVec 32} {ld n : Nat} :
    log2Loop v ld = some n ↔ ld ≤ n ∧ v.toNat = 2 ^ (n - ld) := by
  induction v, ld using log2Loop.induct with
  | case1 ld =>
      have hpow : 0 < 2 ^ (n - ld) := Nat.two_pow_pos _
      have hzero : (0 : BitVec 32).toNat = 0 := rfl
      rw [log2Loop, dif_pos rfl, hzero]
      simp only [reduceCtorEq, false_iff]
      omega
  | case2 ld hne hodd =>
      have hone : (1 : BitVec 32).toNat = 1 := rfl
      rw [log2Loop, dif_neg hne, if_pos hodd, if_pos rfl, hone,
        Option.some.injEq, eq_comm (a := 1), Nat.pow_eq_one]
      omega
  | case3 v ld hne hodd hone =>
      rw [log2Loop, dif_neg hne, if_pos hodd, if_neg hone]
      simp only [reduceCtorEq, false_iff, not_and]
      intro hle hv
      rw [odd_iff, hv, two_pow_mod] at hodd
      rw [hodd] at hv
      exact hone (BitVec.eq_of_toNat_eq hv)
  | case4 v ld hne heven ih =>
      rw [log2Loop, dif_neg hne, if_neg heven, ih, BitVec.toNat_ushiftRight,
        Nat.shiftRight_eq_div_pow]
      rw [odd_iff] at heven
      constructor
      · rintro ⟨hle, hv⟩
        refine ⟨by omega, ?_⟩
        rw [show n - ld = n - (ld + 1) + 1 by omega, Nat.pow_succ, ← hv]
        omega
      · rintro ⟨hle, hv⟩
        have hlt : ld ≠ n := by
          rintro rfl
          rw [Nat.sub_self] at hv
          omega
        refine ⟨by omega, ?_⟩
        rw [hv, show n - ld = n - (ld + 1) + 1 by omega, Nat.pow_succ]
        omega

theorem log2_eq_some {v : BitVec 32} {n : Nat} :
    log2 v = some n ↔ v.toNat = 2 ^ n := by
  rw [log2, log2Loop_eq_some]
  simp

/-- Constants below 256 arrive unchanged. -/
private theorem setWidth_of_small {n : BitVec 32} (hn : n < 256) :
    (n.setWidth 8).setWidth 32 = n := by
  apply BitVec.eq_of_toNat_eq
  have hlt : n.toNat < 256 := hn
  rw [BitVec.toNat_setWidth, BitVec.toNat_setWidth]
  omega

private theorem setWidth_eq_zero {n : BitVec 32} (hn : n < 256)
    (h : n.setWidth 8 = 0) : n = 0 := by
  rw [← setWidth_of_small hn, h]
  rfl

private theorem lt_of_two_pow {n : BitVec 32} {ld : Nat}
    (h : n.toNat = 2 ^ ld) : ld < 32 := by
  have hn := n.isLt
  rw [h] at hn
  exact (Nat.pow_lt_pow_iff_right (by omega)).mp hn

private theorem shiftData_evaluate {dsc : OpDsc} {x : Data} {m n : BitVec 32}
    {w : Number} (hdsc : dsc = .shiftLeft ∨ dsc = .shiftRight)
    (hx : evaluate assign x = .ok (dataUnum m))
    (hshift : shiftEval dsc (dataUnum m) (dataUnum n) = .ok w) :
    ∃ e, shiftData dsc x (.unum n) = .ok e ∧ evaluate assign e = .ok w := by
  have htype := evaluate_type hx
  cases x with
  | unum m' =>
      cases hx
      refine ⟨if w.ipv4 then .ipv4 w.unum else .unum w.unum, ?_, ?_⟩
      · have hword : shiftEval dsc ⟨false, m⟩ (dataUnum n) = .ok w := hshift
        simp [shiftData, integerNumber, Data.type, Data.isOp, Data.unumValue,
          hword, bind, Except.bind, pure, Except.pure]
      · obtain ⟨ipv4, value⟩ := w
        cases ipv4 <;> rfl
  | op dsc' t a b c =>
      refine ⟨.op dsc t (.op dsc' t a b c) (.unum n) .none, ?_, ?_⟩
      · simp only [shiftData, htype, Data.isOp]
        rfl
      · have hoperand := hx
        rw [evaluate, nodeEval_iff] at hoperand
        rw [evaluate, nodeEval_iff]
        refine ⟨hoperand.1, .binary (by rintro ⟨⟩) hx rfl ?_⟩
        rcases hdsc with rfl | rfl <;> exact hshift
  | _ => cases hx

private theorem toNat_ofNat_of_lt {ld : Nat} (h : ld < 32) :
    (BitVec.ofNat 32 ld).toNat = ld := by
  rw [BitVec.toNat_ofNat]
  omega

/-- A product that fits is a shift that does not overflow. -/
private theorem shiftLeft_evaluate {m : BitVec 32} {ld : Nat} (hld : ld < 32)
    (hfit : 2 ^ ld * m.toNat < 2 ^ 32) :
    shiftEval .shiftLeft (dataUnum m) (dataUnum (.ofNat 32 ld)) =
      .ok (dataUnum (m <<< ld)) := by
  have hcount := toNat_ofNat_of_lt hld
  have hlow : ¬(32 : BitVec 32) ≤ .ofNat 32 ld := by
    rw [BitVec.le_def, hcount]
    exact Nat.not_le.mpr hld
  have hsub : ((32 : BitVec 32) - .ofNat 32 ld).toNat = 32 - ld := by
    rw [BitVec.toNat_sub, hcount]
    have h32 : (32 : BitVec 32).toNat = 32 := rfl
    rw [h32]
    omega
  have hhigh : m >>> ((32 : BitVec 32) - .ofNat 32 ld) = 0 := by
    apply BitVec.eq_of_toNat_eq
    rw [BitVec.ushiftRight_eq', BitVec.toNat_ushiftRight, hsub,
      Nat.shiftRight_eq_div_pow]
    apply Nat.div_eq_of_lt
    have hsplit : 2 ^ 32 = 2 ^ ld * 2 ^ (32 - ld) := by
      rw [← Nat.pow_add]
      congr 1
      omega
    rw [hsplit] at hfit
    exact Nat.lt_of_mul_lt_mul_left hfit
  have hsum : ¬((32 ≤ BitVec.ofNat 32 ld ∧ m ≠ 0) ∨
      (BitVec.ofNat 32 ld ≠ 0 ∧ m >>> (32 - BitVec.ofNat 32 ld) ≠ 0)) := by
    rintro (⟨h, -⟩ | ⟨-, h⟩)
    · exact hlow h
    · exact h hhigh
  simp only [shiftEval, dataUnum, if_neg hsum, if_true, Bool.false_eq_true,
    if_false, BitVec.shiftLeft_eq', hcount]

private theorem shiftRight_evaluate {m : BitVec 32} {ld : Nat}
    (hld : ld < 32) :
    shiftEval .shiftRight (dataUnum m) (dataUnum (.ofNat 32 ld)) =
      .ok (dataUnum (m >>> ld)) := by
  have hcount := toNat_ofNat_of_lt hld
  have hlow : ¬(32 : BitVec 32) ≤ .ofNat 32 ld := by
    rw [BitVec.le_def, hcount]
    exact Nat.not_le.mpr hld
  simp only [shiftEval, dataUnum, reduceCtorEq, if_neg hlow,
    Bool.false_eq_true, if_false, BitVec.ushiftRight_eq', hcount]

private theorem mul_eq_shiftLeft {n : BitVec 32} {ld : Nat}
    (h : n.toNat = 2 ^ ld) (m : BitVec 32) : n * m = m <<< ld := by
  apply BitVec.eq_of_toNat_eq
  rw [BitVec.toNat_mul, BitVec.toNat_shiftLeft, Nat.shiftLeft_eq, h,
    Nat.mul_comm]

private theorem div_eq_shiftRight {n : BitVec 32} {ld : Nat}
    (h : n.toNat = 2 ^ ld) (m : BitVec 32) : m / n = m >>> ld := by
  apply BitVec.eq_of_toNat_eq
  rw [BitVec.toNat_udiv, BitVec.toNat_ushiftRight, Nat.shiftRight_eq_div_pow,
    h]

private theorem mod_eq_and {n : BitVec 32} {ld : Nat}
    (h : n.toNat = 2 ^ ld) (m : BitVec 32) : m % n = m &&& (n - 1) := by
  have hone : (1 : BitVec 32).toNat = 1 := rfl
  have hle : 1 ≤ n.toNat := by
    rw [h]
    exact Nat.one_le_two_pow
  apply BitVec.eq_of_toNat_eq
  rw [BitVec.toNat_umod, BitVec.toNat_and, BitVec.toNat_sub_of_le hle, hone, h,
    Nat.and_two_pow_sub_one_eq_mod]

theorem mulOpt_evaluate {x : Data} {m n : BitVec 32}
    (hx : evaluate assign x = .ok (dataUnum m)) (hn : n < 256)
    (hfit : n.toNat * m.toNat < 2 ^ 32) :
    ∃ opt, mulOpt x (n.setWidth 8) = .ok opt ∧
      ∀ e, opt = some e → evaluate assign e = .ok (dataUnum (n * m)) := by
  rw [mulOpt, setWidth_of_small hn]
  split
  case isTrue hzero =>
    refine ⟨_, rfl, ?_⟩
    rintro e ⟨⟩
    rw [setWidth_eq_zero hn hzero, show (0 : BitVec 32) * m = 0 from
      BitVec.zero_mul]
    rfl
  cases hlog : log2 n with
  | none => exact ⟨none, rfl, by rintro _ ⟨⟩⟩
  | some ld =>
      have hpow := log2_eq_some.mp hlog
      have hld := lt_of_two_pow hpow
      rw [hpow] at hfit
      rw [mul_eq_shiftLeft hpow]
      by_cases hone : ld = 0
      · subst hone
        refine ⟨some x, rfl, ?_⟩
        rintro e ⟨⟩
        rw [hx, BitVec.shiftLeft_zero]
      · obtain ⟨e, he, hvalue⟩ := shiftData_evaluate (.inl rfl) hx
          (shiftLeft_evaluate hld hfit)
        refine ⟨some e, ?_, ?_⟩
        · simp only [if_neg hone, he]
          rfl
        · rintro e' ⟨⟩
          exact hvalue

theorem divROpt_evaluate {x : Data} {m n : BitVec 32}
    (hx : evaluate assign x = .ok (dataUnum m)) (hn : n < 256) :
    ∃ opt, divROpt x (n.setWidth 8) = .ok opt ∧
      ∀ e, opt = some e → evaluate assign e = .ok (dataUnum (m / n)) := by
  rw [divROpt, setWidth_of_small hn]
  cases hlog : log2 n with
  | none => exact ⟨none, rfl, by rintro _ ⟨⟩⟩
  | some ld =>
      have hpow := log2_eq_some.mp hlog
      have hld := lt_of_two_pow hpow
      rw [div_eq_shiftRight hpow]
      by_cases hone : ld = 0
      · subst hone
        refine ⟨some x, rfl, ?_⟩
        rintro e ⟨⟩
        rw [hx, BitVec.ushiftRight_zero]
      · obtain ⟨e, he, hvalue⟩ := shiftData_evaluate (.inr rfl) hx
          (shiftRight_evaluate hld)
        refine ⟨some e, ?_, ?_⟩
        · simp only [if_neg hone, he]
          rfl
        · rintro e' ⟨⟩
          exact hvalue

/-- The modulus is in the expression itself. -/
theorem modOpt_evaluate {t : DataType} {x e : Data} {m n : BitVec 32}
    (ht : t = .unum ∨ t = .ipv4 ∨ t = .ipv6)
    (hx : evaluate assign x = .ok (dataUnum m)) (hn : n < 256)
    (he : modOpt t x n .none (n.setWidth 8) = some e) :
    evaluate assign e = .ok (dataUnum (m % n)) := by
  rw [modOpt, setWidth_of_small hn] at he
  split at he
  case isTrue hone =>
    cases he
    have hn1 : n = 1 := by
      rw [← setWidth_of_small hn, hone]
      rfl
    rw [hn1, show m % (1 : BitVec 32) = 0 from BitVec.umod_one]
    rfl
  cases hlog : log2 n with
  | none =>
      rw [hlog] at he
      cases he
  | some ld =>
      rw [hlog] at he
      cases he
      have hpow := log2_eq_some.mp hlog
      rw [mod_eq_and hpow, evaluate, nodeEval_iff]
      exact ⟨ht, .binary (by rintro ⟨⟩) hx rfl rfl⟩

/-! ## Results of the evaluators -/

private theorem eq_dataUnum {x : Number} (h : ¬x.ipv4 = true) :
    x = dataUnum x.unum := by
  obtain ⟨ipv4, n⟩ := x
  cases ipv4
  · rfl
  · exact absurd rfl h

private theorem mult_values {x y v : Number}
    (h : binaryEval .mult x y = .ok v) :
    x = dataUnum x.unum ∧ y = dataUnum y.unum ∧
      x.unum.toNat * y.unum.toNat < 2 ^ 32 ∧
      v = dataUnum (x.unum * y.unum) := by
  simp only [binaryEval, Op.binaryEval, multEval] at h
  split at h
  · cases h
  rename_i htype
  split at h
  · cases h
  rename_i hzero
  split at h
  · cases h
  rename_i hfits
  refine ⟨eq_dataUnum fun hx => htype (.inl hx),
    eq_dataUnum fun hy => htype (.inr hy), ?_, (Except.ok.inj h).symm⟩
  have hpos : 0 < x.unum.toNat :=
    Nat.pos_of_ne_zero fun hz => hzero (BitVec.eq_of_toNat_eq hz)
  rw [BitVec.lt_def, BitVec.toNat_udiv, Nat.not_lt,
    Nat.le_div_iff_mul_le hpos] at hfits
  have hmax : (0xffffffff : BitVec 32).toNat = 2 ^ 32 - 1 := rfl
  rw [hmax, Nat.mul_comm] at hfits
  omega

private theorem div_values {x y v : Number}
    (h : binaryEval .div x y = .ok v) :
    x = dataUnum x.unum ∧ y = dataUnum y.unum ∧ y.unum ≠ 0 ∧
      v = dataUnum (x.unum / y.unum) := by
  simp only [binaryEval, divEval] at h
  split at h
  · cases h
  split at h
  · rename_i hx hmask
    exact absurd hmask.1 hx
  split at h
  · cases h
  rename_i htype
  split at h
  · cases h
  rename_i hzero
  exact ⟨eq_dataUnum fun hx => htype (.inl hx),
    eq_dataUnum fun hy => htype (.inr hy), hzero, (Except.ok.inj h).symm⟩

private theorem mod_values {x y v : Number}
    (h : binaryEval .mod x y = .ok v) :
    x = dataUnum x.unum ∧ y = dataUnum y.unum ∧ y.unum ≠ 0 ∧
      v = dataUnum (x.unum % y.unum) := by
  simp only [binaryEval, Op.binaryEval, unum2Eval, and_true, true_and] at h
  split at h
  · cases h
  rename_i htype
  split at h
  · cases h
  rename_i hzero
  have hx := eq_dataUnum fun hx => htype (.inl hx)
  have hy := eq_dataUnum fun hy => htype (.inr hy)
  refine ⟨hx, hy, hzero, ?_⟩
  rw [hx, hy] at h
  exact (Except.ok.inj h).symm

/-! ## Small constants -/

/-- The constant that decides about a node. -/
def constantOperand (dsc : OpDsc) (a b : Data) : Option (BitVec 32) :=
  match dsc, a, b with
  | .mult, .unum n, _ => some n
  | .mult, _, .unum n => some n
  | .div, .unum n, _ => some n
  | .div, _, .unum n => some n
  | .mod, _, .unum n => some n
  | _, _, _ => none

def hasSmallConstant (dsc : OpDsc) (a b : Data) : Bool :=
  (constantOperand dsc a b).all (· < 256)

/-- A node with a constant of more than 8 bits stays as it is. -/
def reduceNode (dsc : OpDsc) (t : DataType) (a b c : Data) :
    Except Error Data :=
  if hasSmallConstant dsc a b then do
    let r ← mulDivModNode dsc t a b c
    return r.result
  else .ok (.op dsc t a b c)

/-- The table of conversions, with constants of at most 8 bits only. -/
def reduce : Data → Except Error Data
  | .op dsc t a b c => do
      let a ← reduce a
      let b ← reduce b
      let c ← reduce c
      reduceNode dsc t a b c
  | d => .ok d

/-- Where the constant of a product or a quotient stands. -/
private inductive Constant : Data → Data → Prop
  | left (n b) : Constant (.unum n) b
  | right {a} (n) (ha : ∀ m, a ≠ .unum m) : Constant a (.unum n)
  | neither {a b} (ha : ∀ m, a ≠ .unum m) (hb : ∀ m, b ≠ .unum m) :
      Constant a b

private theorem constant_cases (a b : Data) : Constant a b := by
  by_cases ha : ∃ n, a = .unum n
  · obtain ⟨n, rfl⟩ := ha
    exact .left n b
  by_cases hb : ∃ n, b = .unum n
  · obtain ⟨n, rfl⟩ := hb
    exact .right n fun m hm => ha ⟨m, hm⟩
  · exact .neither (fun m hm => ha ⟨m, hm⟩) fun m hm => hb ⟨m, hm⟩

section

variable {a b : Data} (t : DataType) (c : Data)

private theorem mulNode_right (ha : ∀ m, a ≠ .unum m) (n : BitVec 32) :
    mulDivModNode .mult t a (.unum n) c = (do
      let opt ← mulOpt a (n.setWidth 8)
      return .ofOpt (.op .mult t a (.unum n) c) opt) := by
  cases a with
  | unum m => exact absurd rfl (ha m)
  | _ => rfl

private theorem mulNode_neither (ha : ∀ m, a ≠ .unum m)
    (hb : ∀ m, b ≠ .unum m) :
    mulDivModNode .mult t a b c = .ok (.done (.op .mult t a b c)) := by
  cases b with
  | unum m => exact absurd rfl (hb m)
  | _ =>
      cases a with
      | unum m => exact absurd rfl (ha m)
      | _ => rfl

private theorem divNode_right (ha : ∀ m, a ≠ .unum m) (n : BitVec 32) :
    mulDivModNode .div t a (.unum n) c = (do
      let opt ← divROpt a (n.setWidth 8)
      return .ofOpt (.op .div t a (.unum n) c) opt) := by
  cases a with
  | unum m => exact absurd rfl (ha m)
  | _ => rfl

private theorem divNode_neither (ha : ∀ m, a ≠ .unum m)
    (hb : ∀ m, b ≠ .unum m) :
    mulDivModNode .div t a b c = .ok (.done
      (if a.exprEqual b then .unum 1 else .op .div t a b c)) := by
  cases b with
  | unum m => exact absurd rfl (hb m)
  | _ =>
      cases a with
      | unum m => exact absurd rfl (ha m)
      | _ => rfl

private theorem modNode_other (hb : ∀ m, b ≠ .unum m) :
    mulDivModNode .mod t a b c = .ok (.done
      (if a.exprEqual b then .unum 0 else .op .mod t a b c)) := by
  cases b with
  | unum m => exact absurd rfl (hb m)
  | _ => rfl

end

private theorem small_left {dsc : OpDsc} (h : dsc = .mult ∨ dsc = .div)
    {n : BitVec 32} {b : Data}
    (hsmall : hasSmallConstant dsc (.unum n) b = true) : n < 256 := by
  rcases h with rfl | rfl <;> exact of_decide_eq_true hsmall

private theorem small_right {dsc : OpDsc} (h : dsc = .mult ∨ dsc = .div)
    {n : BitVec 32} {a : Data} (ha : ∀ m, a ≠ .unum m)
    (hsmall : hasSmallConstant dsc a (.unum n) = true) : n < 256 := by
  cases a with
  | unum m => exact absurd rfl (ha m)
  | _ => rcases h with rfl | rfl <;> exact of_decide_eq_true hsmall

/-- A helper that keeps the value does so where it leaves the node alone. -/
private theorem ofOpt_evaluate {d : Data} {opt : Option Data} {v : Number}
    (hd : evaluate assign d = .ok v)
    (hopt : ∀ e, opt = some e → evaluate assign e = .ok v) :
    evaluate assign (Reduction.ofOpt d opt).result = .ok v := by
  cases opt with
  | none => exact hd
  | some e => exact hopt e rfl

private theorem mulNode_evaluate {t : DataType} {a b c : Data} {v : Number}
    (hsmall : hasSmallConstant .mult a b = true)
    (h : evaluate assign (.op .mult t a b c) = .ok v) :
    ∃ r, mulDivModNode .mult t a b c = .ok r ∧
      evaluate assign r.result = .ok v := by
  obtain ⟨rfl, x, y, hx, hy, hv⟩ := evaluate_binary (.inl rfl) h
  obtain ⟨hx', hy', hfit, hmul⟩ := mult_values hv
  rw [hx'] at hx
  rw [hy'] at hy
  cases constant_cases a b with
  | left n =>
      have hn := small_left (.inl rfl) hsmall
      have hunum : n = x.unum := congrArg Number.unum (Except.ok.inj hx)
      rw [← hunum] at hfit hmul
      obtain ⟨opt, hopt, hvalue⟩ := mulOpt_evaluate hy hn hfit
      refine ⟨.ofOpt (.op .mult t (.unum n) b .none) opt, ?_, ?_⟩
      · simp only [mulDivModNode, hopt]
        rfl
      · exact ofOpt_evaluate h fun e he => hmul ▸ hvalue e he
  | right n ha =>
      have hn := small_right (.inl rfl) ha hsmall
      have hunum : n = y.unum := congrArg Number.unum (Except.ok.inj hy)
      rw [← hunum, Nat.mul_comm] at hfit
      rw [← hunum, BitVec.mul_comm] at hmul
      obtain ⟨opt, hopt, hvalue⟩ := mulOpt_evaluate hx hn hfit
      refine ⟨.ofOpt (.op .mult t a (.unum n) .none) opt, ?_, ?_⟩
      · rw [mulNode_right t _ ha, hopt]
        rfl
      · exact ofOpt_evaluate h fun e he => hmul ▸ hvalue e he
  | neither ha hb => exact ⟨_, mulNode_neither t _ ha hb, h⟩

private theorem divNode_evaluate {t : DataType} {a b c : Data} {v : Number}
    (hsmall : hasSmallConstant .div a b = true)
    (h : evaluate assign (.op .div t a b c) = .ok v) :
    ∃ r, mulDivModNode .div t a b c = .ok r ∧
      evaluate assign r.result = .ok v := by
  obtain ⟨rfl, x, y, hx, hy, hv⟩ := evaluate_binary (.inr (.inl rfl)) h
  obtain ⟨hx', hy', hne, hdiv⟩ := div_values hv
  rw [hx'] at hx
  rw [hy'] at hy
  cases constant_cases a b with
  | left n =>
      have hn := small_left (.inr rfl) hsmall
      have hunum : n = x.unum := congrArg Number.unum (Except.ok.inj hx)
      refine ⟨_, rfl, ofOpt_evaluate h ?_⟩
      intro e he
      rw [divLOpt] at he
      split at he
      · cases he
      · rename_i hzero
        cases he
        have hzero := setWidth_eq_zero hn (not_not.mp hzero)
        rw [hdiv, ← hunum, hzero, show (0 : BitVec 32) / y.unum = 0 from
          BitVec.zero_udiv]
        rfl
  | right n ha =>
      have hn := small_right (.inr rfl) ha hsmall
      have hunum : n = y.unum := congrArg Number.unum (Except.ok.inj hy)
      rw [← hunum] at hdiv
      obtain ⟨opt, hopt, hvalue⟩ := divROpt_evaluate hx hn
      refine ⟨.ofOpt (.op .div t a (.unum n) .none) opt, ?_, ?_⟩
      · rw [divNode_right t _ ha, hopt]
        rfl
      · exact ofOpt_evaluate h fun e he => hdiv ▸ hvalue e he
  | neither ha hb =>
      refine ⟨_, divNode_neither t _ ha hb, ?_⟩
      simp only [Reduction.result]
      split
      case isFalse => exact h
      case isTrue heq =>
        have hxy := congrArg Number.unum (exprEqual_evaluate heq hx hy)
        have hself : y.unum / y.unum = 1 := by
          apply BitVec.eq_of_toNat_eq
          rw [BitVec.toNat_udiv, Nat.div_self]
          · rfl
          · exact Nat.pos_of_ne_zero fun hz => hne (BitVec.eq_of_toNat_eq hz)
        rw [hdiv, show x.unum = y.unum from hxy, hself]
        rfl

private theorem modNode_evaluate {t : DataType} {a b c : Data} {v : Number}
    (hsmall : hasSmallConstant .mod a b = true)
    (h : evaluate assign (.op .mod t a b c) = .ok v) :
    ∃ r, mulDivModNode .mod t a b c = .ok r ∧
      evaluate assign r.result = .ok v := by
  obtain ⟨rfl, x, y, hx, hy, hv⟩ := evaluate_binary (.inr (.inr rfl)) h
  obtain ⟨hx', hy', hne, hmod⟩ := mod_values hv
  rw [hx'] at hx
  rw [hy'] at hy
  by_cases hb : ∃ n, b = .unum n
  · obtain ⟨n, rfl⟩ := hb
    have hn : n < 256 := of_decide_eq_true hsmall
    have hunum : n = y.unum := congrArg Number.unum (Except.ok.inj hy)
    refine ⟨_, rfl, ofOpt_evaluate h ?_⟩
    intro e he
    rw [evaluate, nodeEval_iff] at h
    rw [hmod, ← hunum]
    exact modOpt_evaluate h.1 hx hn he
  · refine ⟨_, modNode_other t _ fun m hm => hb ⟨m, hm⟩, ?_⟩
    simp only [Reduction.result]
    split
    case isFalse => exact h
    case isTrue heq =>
      have hxy := congrArg Number.unum (exprEqual_evaluate heq hx hy)
      rw [hmod, show x.unum = y.unum from hxy, BitVec.umod_self]
      rfl

theorem reduceNode_evaluate {dsc : OpDsc} {t : DataType} {a b c : Data}
    {v : Number} (h : evaluate assign (.op dsc t a b c) = .ok v) :
    ∃ e, reduceNode dsc t a b c = .ok e ∧ evaluate assign e = .ok v := by
  rw [reduceNode]
  split
  case isFalse => exact ⟨_, rfl, h⟩
  case isTrue hsmall =>
    have hnode : ∃ r, mulDivModNode dsc t a b c = .ok r ∧
        evaluate assign r.result = .ok v := by
      by_cases hmult : dsc = .mult
      · subst hmult
        exact mulNode_evaluate hsmall h
      by_cases hdiv : dsc = .div
      · subst hdiv
        exact divNode_evaluate hsmall h
      by_cases hmod : dsc = .mod
      · subst hmod
        exact modNode_evaluate hsmall h
      exact ⟨_, mulDivModNode_other hmult hdiv hmod t a b c, h⟩
    obtain ⟨r, hr, hvalue⟩ := hnode
    refine ⟨r.result, ?_, hvalue⟩
    rw [hr]
    rfl

/-- The table keeps the value. -/
theorem reduce_evaluate {d : Data} {v : Number}
    (h : evaluate assign d = .ok v) :
    ∃ e, reduce d = .ok e ∧ evaluate assign e = .ok v := by
  induction d generalizing v with
  | op dsc t a b c iha ihb ihc =>
      have hoperands : ∃ a' b', reduce a = .ok a' ∧ reduce b = .ok b' ∧
          reduce c = .ok c ∧ evaluate assign (.op dsc t a' b' c) = .ok v := by
        rw [evaluate, nodeEval_iff] at h
        obtain ⟨ht, hnode⟩ := h
        cases hnode with
        | access ha hy =>
            subst ha
            obtain ⟨b', hb', hvalue⟩ := ihb hy
            refine ⟨_, b', rfl, hb', rfl, ?_⟩
            rw [evaluate, nodeEval_iff]
            exact ⟨ht, .access rfl hvalue⟩
        | unary hb hx hv =>
            subst hb
            obtain ⟨a', ha', hvalue⟩ := iha hx
            refine ⟨a', _, ha', rfl, rfl, ?_⟩
            rw [evaluate, nodeEval_iff]
            exact ⟨ht, .unary rfl hvalue hv⟩
        | binary hb hx hy hv =>
            obtain ⟨a', ha', hvaluea⟩ := iha hx
            obtain ⟨b', hb', hvalueb⟩ := ihb hy
            refine ⟨a', b', ha', hb', rfl, ?_⟩
            rw [evaluate, nodeEval_iff]
            refine ⟨ht, .binary ?_ hvaluea hvalueb hv⟩
            rintro rfl
            cases hvalueb
      obtain ⟨a', b', ha', hb', hc', hvalue⟩ := hoperands
      simp only [reduce, ha', hb', hc', bind, Except.bind]
      exact reduceNode_evaluate hvalue
  | _ => exact ⟨_, rfl, h⟩

/-! ## Constants that are cut off -/

/-- The low byte of the constant selects no conversion. -/
def lowByteKeeps (dsc : OpDsc) (a b : Data) : Bool :=
  match dsc, a, b with
  | .mult, .unum n, _ => n.setWidth 8 ≠ (0 : BitVec 8) ∧
      log2 ((n.setWidth 8).setWidth 32) = none
  | .mult, _, .unum n => n.setWidth 8 ≠ (0 : BitVec 8) ∧
      log2 ((n.setWidth 8).setWidth 32) = none
  | .div, .unum n, _ => n.setWidth 8 ≠ (0 : BitVec 8)
  | .div, _, .unum n => log2 ((n.setWidth 8).setWidth 32) = none
  | .mod, _, .unum n => log2 ((n.setWidth 8).setWidth 32) = none
  | _, _, _ => true

/-- No constant that the table leaves at a `*`, `/` or `%` is mistaken for its
low byte. -/
def Unmistaken : Data → Prop
  | .op dsc _ a b c => Unmistaken a ∧ Unmistaken b ∧ Unmistaken c ∧
      ∀ a' b', reduce a = .ok a' → reduce b = .ok b' →
        hasSmallConstant dsc a' b' = true ∨ lowByteKeeps dsc a' b' = true
  | _ => True

private theorem mulDivModNode_of_lowByteKeeps {dsc : OpDsc} {a b : Data}
    (h : lowByteKeeps dsc a b = true) (hlarge : ¬hasSmallConstant dsc a b)
    (t : DataType) (c : Data) :
    mulDivModNode dsc t a b c = .ok (.done (.op dsc t a b c)) := by
  by_cases hmult : dsc = .mult
  · subst hmult
    cases constant_cases a b with
    | left n =>
        have hkeep := of_decide_eq_true h
        simp only [mulDivModNode, mulOpt, if_neg hkeep.1, hkeep.2]
        rfl
    | right n ha =>
        have hkeep : n.setWidth 8 ≠ (0 : BitVec 8) ∧
            log2 ((n.setWidth 8).setWidth 32) = none := by
          cases a with
          | unum m => exact absurd rfl (ha m)
          | _ => exact of_decide_eq_true h
        rw [mulNode_right t c ha]
        simp only [mulOpt, if_neg hkeep.1, hkeep.2]
        rfl
    | neither ha hb => exact mulNode_neither t c ha hb
  by_cases hdiv : dsc = .div
  · subst hdiv
    cases constant_cases a b with
    | left n =>
        have hkeep := of_decide_eq_true h
        simp only [mulDivModNode, divLOpt, if_pos hkeep]
        rfl
    | right n ha =>
        have hkeep : log2 ((n.setWidth 8).setWidth 32) = none := by
          cases a with
          | unum m => exact absurd rfl (ha m)
          | _ => exact of_decide_eq_true h
        rw [divNode_right t c ha]
        simp only [divROpt, hkeep]
        rfl
    | neither ha hb =>
        exfalso
        apply hlarge
        cases b with
        | unum m => exact absurd rfl (hb m)
        | _ =>
            cases a with
            | unum m => exact absurd rfl (ha m)
            | _ => rfl
  by_cases hmod : dsc = .mod
  · subst hmod
    by_cases hb : ∃ n, b = .unum n
    · obtain ⟨n, rfl⟩ := hb
      have hkeep : log2 ((n.setWidth 8).setWidth 32) = none :=
        of_decide_eq_true h
      have hone : ¬n.setWidth 8 = (1 : BitVec 8) := by
        intro hone
        have hlog : log2 ((1 : BitVec 8).setWidth 32) = some 0 :=
          log2_eq_some.mpr rfl
        rw [hone, hlog] at hkeep
        cases hkeep
      have hopt : modOpt t a n c (n.setWidth 8) = none := by
        rw [modOpt, if_neg hone, hkeep]
      simp only [mulDivModNode, hopt]
      rfl
    · exfalso
      apply hlarge
      cases b with
      | unum m => exact absurd ⟨m, rfl⟩ hb
      | _ => rfl
  exact mulDivModNode_other hmult hdiv hmod t a b c

theorem mulDivModPass_eq_reduce {d : Data} (h : Unmistaken d) :
    mulDivModPass d = reduce d := by
  induction d with
  | op dsc t a b c iha ihb ihc =>
      obtain ⟨ha, hb, hc, hnode⟩ := h
      simp only [mulDivModPass, reduce, iha ha, ihb hb, ihc hc]
      cases ha' : reduce a with
      | error => rfl
      | ok a' =>
      cases hb' : reduce b with
      | error => rfl
      | ok b' =>
      cases hc' : reduce c with
      | error => rfl
      | ok c' =>
      by_cases hsmall : hasSmallConstant dsc a' b' = true
      · simp only [bind, Except.bind, reduceNode, if_pos hsmall]
      · have hkeep := (hnode a' b' ha' hb').resolve_left hsmall
        simp only [bind, Except.bind, reduceNode, if_neg hsmall,
          mulDivModNode_of_lowByteKeeps hkeep hsmall]
        rfl
  | _ => rfl

/-- For every assignment without error, `mul_div_mod` returns, and what it
returns has the same value. -/
def MulDivModPreserves (d : Data) : Prop :=
  ∀ assign v, evaluate assign d = .ok v →
    ∃ e, (∀ fuel, d.size < fuel → mulDivMod fuel d = .ok e) ∧
      evaluate assign e = .ok v

private theorem preserves_of_unmistaken {d : Data} (h : Unmistaken d) :
    MulDivModPreserves d := by
  intro assign v hv
  obtain ⟨e, he, hvalue⟩ := reduce_evaluate hv
  refine ⟨e, fun fuel hfuel => ?_, hvalue⟩
  rw [mulDivMod_eq_pass d hfuel, mulDivModPass_eq_reduce h, he]

/-! ## One operator

The condition is exact for one access and one constant. -/

/-- An access of 32 bits at a fixed place. -/
def wordAccess (root : Nat) (offset : BitVec 32) : Data :=
  .op .access .unum (.fieldRoot root) (.unum offset) (.unum 32)

private def always (m : BitVec 32) : Assignment := fun _ _ _ => m

private theorem evaluate_wordAccess (m : BitVec 32) (root : Nat)
    (offset : BitVec 32) :
    evaluate (always m) (wordAccess root offset) = .ok (dataUnum m) := rfl

private theorem low_small (n : BitVec 32) :
    (n.setWidth 8).setWidth 32 < (256 : BitVec 32) := by
  have h := (n.setWidth 8).isLt
  have h256 : (256 : BitVec 32).toNat = 256 := rfl
  rw [BitVec.lt_def, BitVec.toNat_setWidth, h256]
  omega

private theorem low_low (n : BitVec 32) :
    ((n.setWidth 8).setWidth 32).setWidth 8 = n.setWidth 8 := by
  apply BitVec.eq_of_toNat_eq
  simp only [BitVec.toNat_setWidth]
  omega

section

variable (root : Nat) (offset : BitVec 32) {n : BitVec 32}

/-- What `mul_opt` returns is the product with the low byte. -/
private theorem mulOpt_low (h : ¬(n.setWidth 8 ≠ (0 : BitVec 8) ∧
      log2 ((n.setWidth 8).setWidth 32) = none)) :
    ∃ e, mulOpt (wordAccess root offset) (n.setWidth 8) = .ok (some e) ∧
      evaluate (always 1) e = .ok (dataUnum ((n.setWidth 8).setWidth 32)) := by
  have hfit : ((n.setWidth 8).setWidth 32 : BitVec 32).toNat *
      (1 : BitVec 32).toNat < 2 ^ 32 := by
    have hone : (1 : BitVec 32).toNat = 1 := rfl
    rw [hone, Nat.mul_one]
    exact BitVec.isLt _
  obtain ⟨opt, hopt, hvalue⟩ := mulOpt_evaluate
    (evaluate_wordAccess 1 root offset) (low_small n) hfit
  rw [low_low] at hopt
  cases opt with
  | some e =>
      refine ⟨e, hopt, ?_⟩
      rw [hvalue e rfl, show ∀ m : BitVec 32, m * 1 = m from
        fun m => BitVec.mul_one m]
  | none =>
      exfalso
      apply h
      rw [mulOpt] at hopt
      split at hopt
      · cases hopt
      rename_i hne
      refine ⟨hne, ?_⟩
      cases hlog : log2 ((n.setWidth 8).setWidth 32) with
      | none => rfl
      | some ld =>
          rw [hlog] at hopt
          simp only at hopt
          split at hopt
          · cases hopt
          · obtain ⟨d, -, hd⟩ := bind_eq_ok.mp hopt
            cases hd

/-- What `div_r_opt` returns is the quotient by the low byte. -/
private theorem divROpt_low (m : BitVec 32)
    (h : log2 ((n.setWidth 8).setWidth 32) ≠ none) :
    ∃ e, divROpt (wordAccess root offset) (n.setWidth 8) = .ok (some e) ∧
      evaluate (always m) e =
        .ok (dataUnum (m / (n.setWidth 8).setWidth 32)) := by
  obtain ⟨opt, hopt, hvalue⟩ := divROpt_evaluate
    (evaluate_wordAccess m root offset) (low_small n)
  rw [low_low] at hopt
  cases opt with
  | some e => exact ⟨e, hopt, hvalue e rfl⟩
  | none =>
      exfalso
      rw [divROpt] at hopt
      cases hlog : log2 ((n.setWidth 8).setWidth 32) with
      | none => exact h hlog
      | some ld =>
          rw [hlog] at hopt
          simp only at hopt
          split at hopt
          · cases hopt
          · obtain ⟨d, -, hd⟩ := bind_eq_ok.mp hopt
            cases hd

private theorem ne_low (hn : ¬n < 256) :
    n ≠ (n.setWidth 8).setWidth 32 := by
  intro h
  apply hn
  rw [h]
  exact low_small n

/-- Where the result does not evaluate alike, something was not preserved. -/
private theorem not_preserves {d e : Data} {m : BitVec 32} {v : Number}
    (hv : evaluate (always m) d = .ok v) (he : mulDivModPass d = .ok e)
    (hne : evaluate (always m) e ≠ .ok v) : ¬MulDivModPreserves d := by
  intro h
  obtain ⟨e', he', hvalue⟩ := h (always m) v hv
  have hrun := he' (d.size + 1) (Nat.lt_succ_self _)
  rw [mulDivMod_eq_pass d (Nat.lt_succ_self _), he] at hrun
  rw [Except.ok.inj hrun] at hne
  exact hne hvalue

private theorem dataUnum_ne {m n : BitVec 32} (h : m ≠ n) :
    (Except.ok (dataUnum m) : Except Error Number) ≠ .ok (dataUnum n) := by
  intro heq
  exact h (congrArg Number.unum (Except.ok.inj heq))

/-- One operator between an access and a constant. -/
def onAccess (dsc : OpDsc) (root : Nat) (offset n : BitVec 32) : Data :=
  .op dsc .unum (wordAccess root offset) (.unum n) .none

def onConstant (dsc : OpDsc) (n : BitVec 32) (root : Nat)
    (offset : BitVec 32) : Data :=
  .op dsc .unum (.unum n) (wordAccess root offset) .none

private theorem evaluate_onAccess (dsc : OpDsc) (m : BitVec 32) :
    evaluate (always m) (onAccess dsc root offset n) =
      binaryEval dsc (dataUnum m) (dataUnum n) := rfl

private theorem evaluate_onConstant (dsc : OpDsc) (m : BitVec 32) :
    evaluate (always m) (onConstant dsc n root offset) =
      binaryEval dsc (dataUnum n) (dataUnum m) := rfl

private theorem pass_onAccess {dsc : OpDsc} {r : Reduction}
    (h : mulDivModNode dsc .unum (wordAccess root offset) (.unum n) .none =
      .ok r) : mulDivModPass (onAccess dsc root offset n) = .ok r.result := by
  have hpass : mulDivModPass (onAccess dsc root offset n) = (do
      let r ← mulDivModNode dsc .unum (wordAccess root offset) (.unum n) .none
      return r.result) := rfl
  rw [hpass, h]
  rfl

private theorem pass_onConstant {dsc : OpDsc} {r : Reduction}
    (h : mulDivModNode dsc .unum (.unum n) (wordAccess root offset) .none =
      .ok r) : mulDivModPass (onConstant dsc n root offset) = .ok r.result := by
  have hpass : mulDivModPass (onConstant dsc n root offset) = (do
      let r ← mulDivModNode dsc .unum (.unum n) (wordAccess root offset) .none
      return r.result) := rfl
  rw [hpass, h]
  rfl

private theorem wordAccess_ne (m : BitVec 32) :
    wordAccess root offset ≠ .unum m := nofun

private theorem mult_evaluates {m : BitVec 32} (hm : m ≠ 0)
    (hfit : m.toNat * n.toNat < 2 ^ 32) :
    binaryEval .mult (dataUnum m) (dataUnum n) = .ok (dataUnum (m * n)) := by
  have hpos : 0 < m.toNat :=
    Nat.pos_of_ne_zero fun hz => hm (BitVec.eq_of_toNat_eq hz)
  have hfits : ¬(0xffffffff : BitVec 32) / m < n := by
    have hmax : (0xffffffff : BitVec 32).toNat = 2 ^ 32 - 1 := rfl
    rw [BitVec.lt_def, BitVec.toNat_udiv, hmax, Nat.not_lt,
      Nat.le_div_iff_mul_le hpos, Nat.mul_comm]
    omega
  have hunfold : binaryEval .mult (dataUnum m) (dataUnum n) =
      if m = 0 then .error divisionByZero
      else if 0xffffffff / m < n then
        .error (.error "%lu*%lu exceeds 32 bit range")
      else .ok (dataUnum (m * n)) := rfl
  rw [hunfold, if_neg hm, if_neg hfits]

private theorem div_evaluates {m : BitVec 32} (hn : n ≠ 0) :
    binaryEval .div (dataUnum m) (dataUnum n) = .ok (dataUnum (m / n)) := by
  have hunfold : binaryEval .div (dataUnum m) (dataUnum n) =
      if n = 0 then .error divisionByZero
      else .ok (dataUnum (m / n)) := rfl
  rw [hunfold, if_neg hn]

private theorem mod_evaluates {m : BitVec 32} (hn : n ≠ 0) :
    binaryEval .mod (dataUnum m) (dataUnum n) = .ok (dataUnum (m % n)) := by
  have hunfold : binaryEval .mod (dataUnum m) (dataUnum n) =
      if OpDsc.mod = .mod ∧ n = 0 then .error divisionByZero
      else .ok (dataUnum (m % n)) := rfl
  rw [hunfold, if_neg fun h => hn h.2]

private theorem ne_zero_of_large (hn : ¬n < 256) : n ≠ 0 := by
  rintro rfl
  exact hn (by decide)

private theorem large_le (hn : ¬n < 256) : 256 ≤ n.toNat :=
  Nat.not_lt.mp hn

private theorem toNat_pred (hn : ¬n < 256) : (n - 1).toNat = n.toNat - 1 := by
  have hge := large_le hn
  have hone : (1 : BitVec 32).toNat = 1 := rfl
  rw [BitVec.toNat_sub_of_le (by rw [BitVec.le_def, hone]; omega), hone]

private theorem mult_mistaken (hn : ¬n < 256)
    (h : ¬(n.setWidth 8 ≠ (0 : BitVec 8) ∧
      log2 ((n.setWidth 8).setWidth 32) = none)) :
    ¬MulDivModPreserves (onAccess .mult root offset n) ∧
      ¬MulDivModPreserves (onConstant .mult n root offset) := by
  obtain ⟨e, he, hvalue⟩ := mulOpt_low root offset h
  have hone : (1 : BitVec 32).toNat = 1 := rfl
  have hlt := n.isLt
  have hne : evaluate (always 1) e ≠ .ok (dataUnum n) := by
    rw [hvalue]
    exact dataUnum_ne (ne_low hn).symm
  constructor
  · refine not_preserves ?_ (e := e) ?_ hne
    · rw [evaluate_onAccess, mult_evaluates (by decide) (by rw [hone]; omega),
        show (1 : BitVec 32) * n = n from BitVec.one_mul n]
    · have hnode : mulDivModNode .mult .unum (wordAccess root offset)
          (.unum n) .none = .ok (.again e) := by
        rw [mulNode_right _ _ (wordAccess_ne root offset), he]
        rfl
      exact pass_onAccess root offset hnode
  · refine not_preserves ?_ (e := e) ?_ hne
    · rw [evaluate_onConstant,
        mult_evaluates (ne_zero_of_large hn) (by rw [hone]; omega),
        show n * (1 : BitVec 32) = n from BitVec.mul_one n]
    · have hnode : mulDivModNode .mult .unum (.unum n)
          (wordAccess root offset) .none = .ok (.again e) := by
        simp only [mulDivModNode, he]
        rfl
      exact pass_onConstant root offset hnode

private theorem div_mistaken_left (hn : ¬n < 256)
    (h : n.setWidth 8 = (0 : BitVec 8)) :
    ¬MulDivModPreserves (onConstant .div n root offset) := by
  refine not_preserves (m := 1) (v := dataUnum n) (e := .unum 0) ?_ ?_ ?_
  · rw [evaluate_onConstant, div_evaluates (by decide),
      show n / (1 : BitVec 32) = n from BitVec.udiv_one]
  · have hnode : mulDivModNode .div .unum (.unum n)
        (wordAccess root offset) .none = .ok (.again (.unum 0)) := by
      simp only [mulDivModNode, divLOpt, h]
      rfl
    exact pass_onConstant root offset hnode
  · exact dataUnum_ne (ne_zero_of_large hn).symm

/-- A power of two below 256, and the number it is the low byte of. -/
private theorem low_pow (h : log2 ((n.setWidth 8).setWidth 32) ≠ none) :
    ∃ ld, n.toNat % 256 = 2 ^ ld := by
  obtain ⟨ld, hld⟩ := Option.ne_none_iff_exists'.mp h
  refine ⟨ld, ?_⟩
  have hpow := log2_eq_some.mp hld
  rw [BitVec.toNat_setWidth, BitVec.toNat_setWidth] at hpow
  omega

private theorem div_mistaken_right (hn : ¬n < 256)
    (h : log2 ((n.setWidth 8).setWidth 32) ≠ none) :
    ¬MulDivModPreserves (onAccess .div root offset n) := by
  obtain ⟨e, he, hvalue⟩ := divROpt_low root offset (n - 1) h
  refine not_preserves (m := n - 1) (v := dataUnum ((n - 1) / n)) (e := e)
    ?_ ?_ ?_
  · rw [evaluate_onAccess, div_evaluates (ne_zero_of_large hn)]
  · have hnode : mulDivModNode .div .unum (wordAccess root offset)
        (.unum n) .none = .ok (.again e) := by
      rw [divNode_right _ _ (wordAccess_ne root offset), he]
      rfl
    exact pass_onAccess root offset hnode
  · rw [hvalue]
    apply dataUnum_ne
    intro heq
    obtain ⟨ld, hld⟩ := low_pow h
    have hpos : 0 < 2 ^ ld := Nat.two_pow_pos ld
    have hpred := toNat_pred hn
    have hge := large_le hn
    have hlow : ((n.setWidth 8).setWidth 32 : BitVec 32).toNat =
        n.toNat % 256 := by
      rw [BitVec.toNat_setWidth, BitVec.toNat_setWidth]
      omega
    have hquot := congrArg BitVec.toNat heq
    rw [BitVec.toNat_udiv, BitVec.toNat_udiv, hpred, hlow,
      Nat.div_eq_of_lt (by omega : n.toNat - 1 < n.toNat)] at hquot
    have hle : n.toNat % 256 ≤ n.toNat - 1 := by omega
    have hquot' := Nat.div_pos hle (by omega)
    omega

/-- All of `n` above the low byte is left by the mask. -/
private theorem and_pred_ne_zero (hn : ¬n < 256)
    (hlow : n.toNat % 256 ≠ 0) : n &&& (n - 1) ≠ 0 := by
  intro hzero
  have hand := congrArg (fun m => m.toNat >>> 8) hzero
  have hz : (0 : BitVec 32).toNat >>> 8 = 0 := rfl
  have hpred := toNat_pred hn
  have hge := large_le hn
  simp only [BitVec.toNat_and, Nat.shiftRight_and_distrib, hpred, hz] at hand
  have hsame : (n.toNat - 1) >>> 8 = n.toNat >>> 8 := by
    rw [Nat.shiftRight_eq_div_pow, Nat.shiftRight_eq_div_pow]
    omega
  rw [hsame, Nat.and_self, Nat.shiftRight_eq_div_pow] at hand
  omega

private theorem mod_mistaken (hn : ¬n < 256)
    (h : log2 ((n.setWidth 8).setWidth 32) ≠ none) :
    ¬MulDivModPreserves (onAccess .mod root offset n) := by
  obtain ⟨ld, hld⟩ := low_pow h
  have hpos : 0 < 2 ^ ld := Nat.two_pow_pos ld
  by_cases hone : n.setWidth 8 = (1 : BitVec 8)
  · refine not_preserves (m := 1) (v := dataUnum (1 % n)) (e := .unum 0)
      ?_ ?_ ?_
    · rw [evaluate_onAccess, mod_evaluates (ne_zero_of_large hn)]
    · have hnode : mulDivModNode .mod .unum (wordAccess root offset)
          (.unum n) .none = .ok (.again (.unum 0)) := by
        simp only [mulDivModNode, modOpt, hone]
        rfl
      exact pass_onAccess root offset hnode
    · apply dataUnum_ne
      intro heq
      have hge := large_le hn
      have hrem := congrArg BitVec.toNat heq
      have h1 : (1 : BitVec 32).toNat = 1 := rfl
      have h0 : (0 : BitVec 32).toNat = 0 := rfl
      rw [BitVec.toNat_umod, h0, h1, Nat.mod_eq_of_lt (by omega)] at hrem
      omega
  · refine not_preserves (m := n) (v := dataUnum (n % n))
      (e := .op .and .unum (wordAccess root offset) (.unum (n - 1)) .none)
      ?_ ?_ ?_
    · rw [evaluate_onAccess, mod_evaluates (ne_zero_of_large hn)]
    · obtain ⟨l, hl⟩ := Option.ne_none_iff_exists'.mp h
      have hopt : modOpt .unum (wordAccess root offset) n .none
          (n.setWidth 8) = some (.op .and .unum (wordAccess root offset)
            (.unum (n - 1)) .none) := by
        rw [modOpt, if_neg hone, hl]
      have hnode : mulDivModNode .mod .unum (wordAccess root offset)
          (.unum n) .none = .ok (.again (.op .and .unum
            (wordAccess root offset) (.unum (n - 1)) .none)) := by
        simp only [mulDivModNode, hopt]
        rfl
      exact pass_onAccess root offset hnode
    · have hvalue : evaluate (always n)
          (.op .and .unum (wordAccess root offset) (.unum (n - 1)) .none) =
            .ok (dataUnum (n &&& (n - 1))) := rfl
      rw [hvalue, BitVec.umod_self]
      exact dataUnum_ne (and_pred_ne_zero hn (by omega))

private theorem unmistaken_onAccess (dsc : OpDsc) :
    Unmistaken (onAccess dsc root offset n) ↔
      hasSmallConstant dsc (wordAccess root offset) (.unum n) = true ∨
        lowByteKeeps dsc (wordAccess root offset) (.unum n) = true := by
  constructor
  · rintro ⟨-, -, -, h⟩
    exact h _ _ rfl rfl
  · intro h
    refine ⟨⟨trivial, trivial, trivial, fun _ _ _ _ => .inl rfl⟩, trivial,
      trivial, ?_⟩
    rintro _ _ ⟨⟩ ⟨⟩
    exact h

private theorem unmistaken_onConstant (dsc : OpDsc) :
    Unmistaken (onConstant dsc n root offset) ↔
      hasSmallConstant dsc (.unum n) (wordAccess root offset) = true ∨
        lowByteKeeps dsc (.unum n) (wordAccess root offset) = true := by
  constructor
  · rintro ⟨-, -, -, h⟩
    exact h _ _ rfl rfl
  · intro h
    refine ⟨trivial, ⟨trivial, trivial, trivial, fun _ _ _ _ => .inl rfl⟩,
      trivial, ?_⟩
    rintro _ _ ⟨⟩ ⟨⟩
    exact h

private theorem unmistaken_of_onAccess {dsc : OpDsc}
    (hdsc : dsc = .mult ∨ dsc = .div ∨ dsc = .mod)
    (h : MulDivModPreserves (onAccess dsc root offset n)) :
    Unmistaken (onAccess dsc root offset n) := by
  rw [unmistaken_onAccess]
  by_contra hnone
  obtain ⟨hlarge, hkeep⟩ := not_or.mp hnone
  rcases hdsc with rfl | rfl | rfl
  · have hn : ¬n < 256 := fun hn => hlarge (decide_eq_true hn)
    exact (mult_mistaken root offset hn
      fun hk => hkeep (decide_eq_true hk)).1 h
  · have hn : ¬n < 256 := fun hn => hlarge (decide_eq_true hn)
    exact div_mistaken_right root offset hn
      (fun hk => hkeep (decide_eq_true hk)) h
  · have hn : ¬n < 256 := fun hn => hlarge (decide_eq_true hn)
    exact mod_mistaken root offset hn (fun hk => hkeep (decide_eq_true hk)) h

private theorem unmistaken_of_onConstant {dsc : OpDsc}
    (hdsc : dsc = .mult ∨ dsc = .div ∨ dsc = .mod)
    (h : MulDivModPreserves (onConstant dsc n root offset)) :
    Unmistaken (onConstant dsc n root offset) := by
  rw [unmistaken_onConstant]
  by_contra hnone
  obtain ⟨hlarge, hkeep⟩ := not_or.mp hnone
  rcases hdsc with rfl | rfl | rfl
  · have hn : ¬n < 256 := fun hn => hlarge (decide_eq_true hn)
    exact (mult_mistaken root offset hn
      fun hk => hkeep (decide_eq_true hk)).2 h
  · have hn : ¬n < 256 := fun hn => hlarge (decide_eq_true hn)
    exact div_mistaken_left root offset hn
      (not_not.mp fun hk => hkeep (decide_eq_true hk)) h
  · exact hlarge rfl

end

/-- `mul_div_mod` keeps the value where no constant is mistaken, and for one
operator only there. -/
theorem mulDivMod_preserves (d : Data) {dsc : OpDsc}
    (hdsc : dsc = .mult ∨ dsc = .div ∨ dsc = .mod) (root : Nat)
    (offset n : BitVec 32) :
    (Unmistaken d → MulDivModPreserves d) ∧
      (MulDivModPreserves (onAccess dsc root offset n) ↔
        Unmistaken (onAccess dsc root offset n)) ∧
      (MulDivModPreserves (onConstant dsc n root offset) ↔
        Unmistaken (onConstant dsc n root offset)) :=
  ⟨preserves_of_unmistaken,
    ⟨unmistaken_of_onAccess root offset hdsc, preserves_of_unmistaken⟩,
    ⟨unmistaken_of_onConstant root offset hdsc, preserves_of_unmistaken⟩⟩

/-- The length of the header, in bytes. -/
theorem mulDivMod_preserves_headerLength :
    Unmistaken (.op .mult .unum
      (.op .and .unum (wordAccess 0 0) (.unum 15) .none) (.unum 4) .none) ∧
    MulDivModPreserves (.op .mult .unum
      (.op .and .unum (wordAccess 0 0) (.unum 15) .none) (.unum 4) .none) ∧
    (MulDivModPreserves (onAccess .mult 0 0 300) ↔
      Unmistaken (onAccess .mult 0 0 300)) := by
  have h : Unmistaken (.op .mult .unum
      (.op .and .unum (wordAccess 0 0) (.unum 15) .none) (.unum 4) .none) := by
    refine ⟨⟨⟨trivial, trivial, trivial, fun _ _ _ _ => .inl rfl⟩, trivial,
      trivial, fun _ _ _ _ => .inl rfl⟩, trivial, trivial, ?_⟩
    rintro _ _ ⟨⟩ ⟨⟩
    exact .inl rfl
  obtain ⟨hkept, hiff, -⟩ := mulDivMod_preserves (.op .mult .unum
    (.op .and .unum (wordAccess 0 0) (.unum 15) .none) (.unum 4) .none)
    (.inl rfl) 0 0 300
  exact ⟨h, hkept h, hiff⟩

/-- A product with 256 becomes zero. -/
theorem mulDivMod_times256 : ¬∀ d, MulDivModPreserves d := by
  intro h
  obtain ⟨e, he, hvalue⟩ := h (onAccess .mult 0 0 256) (fun _ _ _ => 1)
    (dataUnum 256) (by decide +kernel)
  have hrun := he 100 (by decide)
  have hzero : mulDivMod 100 (onAccess .mult 0 0 256) = .ok (.unum 0) := by
    decide +kernel
  rw [hzero] at hrun
  rw [← Except.ok.inj hrun] at hvalue
  revert hvalue
  decide +kernel

end Arith

end Tcng
