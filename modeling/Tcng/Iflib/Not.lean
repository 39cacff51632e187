import Tcng.Iflib.SelfContained

/-! Negation expressed with `||` and `&&` (`iflib_not.c`). -/

namespace Tcng

open ShortCircuit ShortCircuit.Eval

structure Warnings where
  warnExpensive : Bool
  warnExpPostOpt : Bool
  warnExpError : Bool

/-- Expensive operations are errors. -/
def Warnings.refuse (w : Warnings) : Bool :=
  (w.warnExpensive || w.warnExpPostOpt) && w.warnExpError

def expensiveNegation : Error :=
  .error "negation is an \"expensive\" operation"

namespace Data

/-- The constant operand of `&`. -/
def maskData : Data → Option Data
  | op .and _ a b _ =>
      if a.isConstant then some a else if b.isConstant then some b else .none
  | _ => .none

end Data

/-- The loop that shifts `tmp` until `u128_and_32(tmp,1)` is not zero. -/
def shiftOutZeroes : Nat → U128 → Except Error U128
  | 0, _ => .error .outOfFuel
  | fuel + 1, tmp =>
      if (tmp.and32 1).isZero then shiftOutZeroes fuel (tmp.shiftRight 1)
      else .ok tmp

/-- The new right-hand side of `a == b` if it tests a single bit. -/
def singleBitTest (a b : Data) : Except Error (Option Data) :=
  if !b.isConstant then
    .error (.assertion "b.type == dt_unum || b.type == dt_ipv6")
  else
    match a.maskData with
    | none => .ok none
    | some maskData =>
        let mask := maskData.convertIpv6
        let val := b.convertIpv6
        if mask.isZero then .ok none
        else if !val.isZero && val.cmp mask ≠ 0 then .ok none
        else do
          let tmp ← shiftOutZeroes 128 mask
          if tmp.cmp (U128.ofBitVec32 1) ≠ 0 then .ok none
          else if val.isZero then .ok (some maskData)
          else .ok (some (.unum 0))

namespace Data

/-- Bounds the work left to `bubbleNot`: `!=` becomes `!` over `==`. -/
def notWeight : Data → Nat
  | op dsc _ a b c =>
      a.notWeight + b.notWeight + c.notWeight + 1 +
        if dsc = .ne then 4 else 0
  | _ => 1

end Data

theorem logicalNotEval_op {dsc : OpDsc} {t : DataType} {a b c d : Data}
    (h : logicalNotEval (.op dsc t a b c) = .ok d) :
    d = .op .logicalNot t (.op dsc t a b c) .none .none := by
  simp only [logicalNotEval, Data.isOp] at h
  split at h
  · cases h
  · cases h
    rfl

/-- `(d && next) || otherwise` -/
def inContext (d next otherwise : Data) : Except Error Data := do
  let d' ← andOrEval .logicalAnd d next
  andOrEval .logicalOr d' otherwise

def bubbleNot (w : Warnings) (d next otherwise : Data) : Except Error Data :=
  match d with
  | .op .ne t a b c =>
      match singleBitTest a b with
      | .error e => .error e
      | .ok (some b') => .ok (.op .eq t a b' c)
      | .ok none =>
          match _h : logicalNotEval (.op .eq t a b c) with
          | .error e => .error e
          | .ok d' => bubbleNot w d' next otherwise
  | .op .logicalNot _ (.op .logicalNot _ a _ _) _ _ =>
      bubbleNot w a next otherwise
  | .op .logicalNot _ (.op .ne t a b c) _ _ =>
      bubbleNot w (.op .eq t a b c) next otherwise
  | .op .logicalNot _ a _ _ =>
      if w.refuse then .error expensiveNegation
      else do
        let a' ← bubbleNot w a otherwise next
        inContext a' otherwise next
  | .op .logicalOr t a b c => do
      let b' ← bubbleNot w b next otherwise
      let ext ← inContext b' next otherwise
      let a' ← bubbleNot w a next ext
      .ok (.op .logicalOr t a' b' c)
  | .op .logicalAnd t a b c => do
      let b' ← bubbleNot w b next otherwise
      let ext ← inContext b' next otherwise
      let a' ← bubbleNot w a ext otherwise
      .ok (.op .logicalAnd t a' b' c)
  | .op dsc t a b c => do
      let b' ← bubbleNot w b next otherwise
      let a' ← bubbleNot w a next otherwise
      let c' ← bubbleNot w c next otherwise
      .ok (.op dsc t a' b' c')
  | d => .ok d
termination_by d.notWeight
decreasing_by
  · rw [logicalNotEval_op _h]
    simp [Data.notWeight]
  all_goals
    simp only [Data.notWeight, reduceCtorEq, if_true, if_false]
    omega

def iflibNot (w : Warnings) (d : Data) : Except Error Data :=
  bubbleNot w d (.unum 1) (.unum 0)

/-! The single bit test. -/

namespace Data

theorem maskData_cases {a m : Data} (h : a.maskData = some m) :
    m.isConstant = true ∧ ∃ t x y c, a = .op .and t x y c ∧
      (m = x ∨ m = y) := by
  match a with
  | .op .and t x y c =>
      simp only [maskData] at h
      split at h
      · cases h
        exact ⟨‹_›, t, m, y, c, rfl, .inl rfl⟩
      · split at h
        · cases h
          exact ⟨‹_›, t, x, m, c, rfl, .inr rfl⟩
        · cases h

end Data

theorem shiftOutZeroes_ok {fuel : Nat} {mask : U128} (hmask : mask.toNat ≠ 0)
    (hfuel : mask.toNat < 2 ^ fuel) :
    ∃ tmp k, shiftOutZeroes fuel mask = .ok tmp ∧
      mask.toNat = tmp.toNat * 2 ^ k := by
  induction fuel generalizing mask with
  | zero => omega
  | succ fuel ih =>
      rw [shiftOutZeroes]
      split
      · rename_i hzero
        have heven := U128.even_of_isZero_and32 hzero
        have hhalf : (mask.shiftRight 1).toNat = mask.toNat / 2 := by
          rw [U128.toNat_shiftRight, Nat.shiftRight_eq_div_pow]
          rfl
        have hne : (mask.shiftRight 1).toNat ≠ 0 := by omega
        obtain ⟨tmp, k, hok, htmp⟩ := ih hne (by omega)
        refine ⟨tmp, k + 1, hok, ?_⟩
        rw [pow_succ, ← mul_assoc, ← htmp, hhalf]
        omega
      · exact ⟨mask, 0, rfl, by simp⟩

/-- The bit of a mask with one bit is either all of the mask or nothing. -/
private theorem and_singleBit (n k : Nat) :
    n &&& 2 ^ k = 0 ∨ n &&& 2 ^ k = 2 ^ k := by
  rw [Nat.and_two_pow]
  cases n.testBit k <;> simp

private theorem num_of_maskData {a m : Data} (h : a.maskData = some m)
    {k : Nat} (hk : m.convertIpv6.toNat = 2 ^ k) (packet : Packet)
    (base : Base) :
    a.num packet base = 0 ∨ a.num packet base = 2 ^ k := by
  obtain ⟨hconst, t, x, y, c, rfl, hxy⟩ := Data.maskData_cases h
  have hm := Data.convertIpv6_toNat hconst packet base
  simp only [Data.num, numOp]
  rcases hxy with rfl | rfl
  · rw [← hm, hk, Nat.and_comm]
    exact and_singleBit _ k
  · rw [← hm, hk]
    exact and_singleBit _ k

theorem singleBitTest_ok {a b : Data} (hb : b.isConstant = true) :
    ∃ result, singleBitTest a b = .ok result ∧
      ∀ b', result = some b' → b'.isConstant = true ∧
        ∀ packet base, (a.num packet base == b'.num packet base) =
          (a.num packet base != b.num packet base) := by
  unfold singleBitTest
  rw [if_neg (by simp [hb])]
  split
  · exact ⟨none, rfl, nofun⟩
  rename_i m hm
  have hconst := (Data.maskData_cases hm).1
  by_cases hzero : m.convertIpv6.isZero = true
  · exact ⟨none, by rw [if_pos hzero], nofun⟩
  rw [if_neg hzero]
  split
  · exact ⟨none, rfl, nofun⟩
  rename_i hval
  have hne : m.convertIpv6.toNat ≠ 0 := by
    rwa [ne_eq, ← U128.isZero_iff]
  obtain ⟨tmp, k, hok, htmp⟩ := shiftOutZeroes_ok hne (U128.toNat_lt _)
  simp only [hok, bind, Except.bind]
  split
  · exact ⟨none, rfl, nofun⟩
  rename_i hone
  rw [Classical.not_not, U128.cmp_eq_zero_iff] at hone
  have hpow : m.convertIpv6.toNat = 2 ^ k := by
    rw [htmp, hone, U128.toNat_ofBitVec32]
    simp
  have hand := num_of_maskData hm hpow
  have hpos : (2 : Nat) ^ k ≠ 0 := by positivity
  split
  · rename_i hbzero
    rw [U128.isZero_iff] at hbzero
    refine ⟨some m, rfl, ?_⟩
    rintro b' ⟨⟩
    refine ⟨hconst, fun packet base => ?_⟩
    rw [← Data.convertIpv6_toNat hconst packet base, hpow,
      ← Data.convertIpv6_toNat hb packet base, hbzero]
    rcases hand packet base with h | h <;> simp [h, hpos.symm]
  · rename_i hbzero
    have hbm : b.convertIpv6 = m.convertIpv6 := by
      simpa [hbzero, U128.cmp_eq_zero_iff] using hval
    refine ⟨some (.unum 0), rfl, ?_⟩
    rintro b' ⟨⟩
    refine ⟨rfl, fun packet base => ?_⟩
    rw [← Data.convertIpv6_toNat hb packet base, hbm, hpow]
    rcases hand packet base with h | h <;>
      simp [h, hpos.symm, Data.num]

/-! `bubbleNot` leaves arithmetic alone. -/

theorem bubbleNot_numeric (w : Warnings) {d : Data} (h : d.numeric = true)
    (next otherwise : Data) : bubbleNot w d next otherwise = .ok d := by
  induction d with
  | op dsc t a b c iha ihb ihc =>
      simp only [Data.numeric, Bool.and_eq_true] at h
      obtain ⟨hdsc, ⟨ha, hb⟩, hc⟩ := h
      cases dsc <;> first
        | contradiction
        | simp only [bubbleNot, iha ha, ihb hb, ihc hc, bind, Except.bind]
  | _ => simp only [bubbleNot]

/-- Tests for (in)equality with a constant, any connective, no counting. -/
def Data.isEquality : Data → Bool
  | op dsc .unum x k none =>
      (dsc == .eq || dsc == .ne) && (x.numeric && k.isConstant)
  | _ => false

theorem Data.isEquality_cases {d : Data} (h : d.isEquality = true) :
    ∃ x k, (d = .eq x k ∨ d = .ne x k) ∧ x.numeric = true ∧
      k.isConstant = true := by
  match d with
  | .op dsc .unum x k .none =>
      simp only [isEquality, Bool.and_eq_true, Bool.or_eq_true,
        beq_iff_eq] at h
      obtain ⟨rfl | rfl, hx, hk⟩ := h
      · exact ⟨x, k, .inl rfl, hx, hk⟩
      · exact ⟨x, k, .inr rfl, hx, hk⟩

def Vocabulary.equality : Vocabulary where
  test d := d.isEquality = true
  isTest h := by
    obtain ⟨x, k, rfl | rfl, hx, hk⟩ := Data.isEquality_cases h <;>
      simp [Data.isTest, OpDsc.relational, hx, Data.isConstant_numeric hk]
  negation := True
  count := False
  constant := False

/-! A converted expression is judged in its context: `next` follows where it
is true and `otherwise` where it is false. -/

/-- Neither negation nor inequality. -/
def Data.Positive (d : Data) : Prop :=
  d.contains .logicalNot = false ∧ d.contains .ne = false

/-- What `bubbleNot` may put in front of or behind an expression. -/
structure Continuation (d : Data) : Prop where
  logical : d.logical = true
  positive : d.Positive
  neverFalse : ∀ env base, NeverFalse (d.eval env base)

structure Converted (d next otherwise d' : Data) : Prop where
  logical : d'.logical = true
  op : d'.isOp = true ∨ d'.type = .decision
  positive : d'.Positive
  refines : ∀ env base,
    Refines (branch (d'.eval env base) (next.eval env base)
        (otherwise.eval env base))
      (branch (d.eval env base) (next.eval env base)
        (otherwise.eval env base))

theorem Data.positive_op {dsc : OpDsc} {t : DataType} {a b c : Data}
    (hnot : dsc ≠ .logicalNot) (hne : dsc ≠ .ne) (ha : a.Positive)
    (hb : b.Positive) (hc : c.Positive) : (op dsc t a b c).Positive := by
  simp [Positive, contains, hnot, hne, ha.1, ha.2, hb.1, hb.2, hc.1, hc.2]

theorem Data.positive_none : none.Positive := ⟨rfl, rfl⟩

theorem Data.positive_numeric {d : Data} (h : d.numeric = true) :
    d.Positive :=
  ⟨contains_numeric h rfl, contains_numeric h rfl⟩

theorem Data.positive_eq {x k : Data} (hx : x.numeric = true)
    (hk : k.isConstant = true) : (eq x k).Positive :=
  positive_op nofun nofun (positive_numeric hx)
    (positive_numeric (isConstant_numeric hk)) positive_none

theorem inContext_ok {d next otherwise : Data} (hlogical : d.logical = true)
    (hop : d.isOp = true ∨ d.type = .decision) (hnext : next.logical = true)
    (hotherwise : otherwise.logical = true) :
    inContext d next otherwise =
      .ok (.logicalOr (.logicalAnd d next) otherwise) := by
  have hand : andOrEval .logicalAnd d next = .ok (.logicalAnd d next) := by
    apply andOrEval_op hlogical hnext
    rcases hop with h | h <;> simp [h]
  simp only [inContext, hand, bind, Except.bind]
  exact andOrEval_op rfl hotherwise (.inl rfl)

theorem eval_inContext {next : Data}
    (hnext : ∀ env base, NeverFalse (next.eval env base)) (b otherwise : Data)
    (env : Env) (base : Base) :
    (Data.logicalOr (.logicalAnd b next) otherwise).eval env base =
      branch (b.eval env base) (next.eval env base)
        (otherwise.eval env base) := by
  rw [Data.eval_logicalOr, Data.eval_logicalAnd, Eval.or, branch_and,
    (hnext env base).branch_congr (b := truth false), branch_truth]

theorem Continuation.extend {b next otherwise b' : Data}
    (hnext : Continuation next) (hotherwise : Continuation otherwise)
    (hb : Converted b next otherwise b') :
    Continuation (.logicalOr (.logicalAnd b' next) otherwise) where
  logical := rfl
  positive :=
    Data.positive_op nofun nofun
      (Data.positive_op nofun nofun hb.positive hnext.positive
        Data.positive_none)
      hotherwise.positive Data.positive_none
  neverFalse env base := by
    rw [eval_inContext hnext.neverFalse]
    exact NeverFalse.branch _ (hnext.neverFalse env base)
      (hotherwise.neverFalse env base)

theorem Converted.of_eval_eq {d d' : Data} (next otherwise : Data)
    (hlogical : d'.logical = true) (hop : d'.isOp = true ∨ d'.type = .decision)
    (hpositive : d'.Positive)
    (heval : ∀ env base, d'.eval env base = d.eval env base) :
    Converted d next otherwise d' where
  logical := hlogical
  op := hop
  positive := hpositive
  refines env base := by
    rw [heval]
    exact .refl _

/-- `!a` is `(a && otherwise) || next`, where `a` was converted with its
continuations exchanged. -/
theorem Converted.not {a next otherwise a' : Data} (hnext : Continuation next)
    (hotherwise : Continuation otherwise)
    (ha : Converted a otherwise next a') :
    Converted (.logicalNot a) next otherwise
      (.logicalOr (.logicalAnd a' otherwise) next) where
  logical := rfl
  op := .inl rfl
  positive :=
    Data.positive_op nofun nofun
      (Data.positive_op nofun nofun ha.positive hotherwise.positive
        Data.positive_none)
      hnext.positive Data.positive_none
  refines env base := by
    rw [eval_inContext hotherwise.neverFalse, Data.eval_logicalNot,
      branch_not]
    exact (ha.refines env base).branch_left _ _

theorem Converted.or {a b next otherwise a' b' : Data}
    (hnext : Continuation next) (hb : Converted b next otherwise b')
    (ha : Converted a next (.logicalOr (.logicalAnd b' next) otherwise) a') :
    Converted (.logicalOr a b) next otherwise (.logicalOr a' b') where
  logical := rfl
  op := .inl rfl
  positive :=
    Data.positive_op nofun nofun ha.positive hb.positive Data.positive_none
  refines env base := by
    have hleft := ha.refines env base
    rw [eval_inContext hnext.neverFalse] at hleft
    rw [Data.eval_logicalOr, Data.eval_logicalOr, branch_or, branch_or]
    exact hleft.trans
      (.branch_congr _ (.refl _) (hb.refines env base))

theorem Converted.and {a b next otherwise a' b' : Data}
    (hnext : Continuation next) (hb : Converted b next otherwise b')
    (ha : Converted a (.logicalOr (.logicalAnd b' next) otherwise) otherwise
      a') :
    Converted (.logicalAnd a b) next otherwise (.logicalAnd a' b') where
  logical := rfl
  op := .inl rfl
  positive :=
    Data.positive_op nofun nofun ha.positive hb.positive Data.positive_none
  refines env base := by
    have hleft := ha.refines env base
    rw [eval_inContext hnext.neverFalse] at hleft
    rw [Data.eval_logicalAnd, Data.eval_logicalAnd, branch_and, branch_and]
    exact hleft.trans
      (.branch_congr _ (hb.refines env base) (.refl _))

/-- The result of a conversion: only the warning options make it fail. -/
def Converts (w : Warnings) (d next otherwise : Data) : Prop :=
  (w.refuse = true ∧
    bubbleNot w d next otherwise = .error expensiveNegation) ∨
  ∃ d', bubbleNot w d next otherwise = .ok d' ∧
    Converted d next otherwise d'

private theorem bubbleNot_eq (w : Warnings) {x k : Data}
    (hx : x.numeric = true) (hk : k.isConstant = true)
    (next otherwise : Data) :
    bubbleNot w (.eq x k) next otherwise = .ok (.eq x k) := by
  have hnone : bubbleNot w .none next otherwise = .ok .none := by
    simp only [bubbleNot]
  simp only [bubbleNot, bubbleNot_numeric w hx, hnone,
    bubbleNot_numeric w (Data.isConstant_numeric hk), bind, Except.bind]

private theorem converted_eq {x k : Data} (hx : x.numeric = true)
    (hk : k.isConstant = true) (next otherwise : Data) :
    Converted (.eq x k) next otherwise (.eq x k) :=
  .of_eval_eq _ _ rfl (.inl rfl) (Data.positive_eq hx hk) fun _ _ => rfl

private theorem converts_eq (w : Warnings) {x k : Data}
    (hx : x.numeric = true) (hk : k.isConstant = true)
    (next otherwise : Data) : Converts w (.eq x k) next otherwise :=
  .inr ⟨_, bubbleNot_eq w hx hk next otherwise,
    converted_eq hx hk next otherwise⟩

/-- The general case of `!`. -/
private theorem converts_not (w : Warnings) {a next otherwise : Data}
    (hnot : ∀ t x y z, a = .op .logicalNot t x y z → False)
    (hne : ∀ t x y z, a = .op .ne t x y z → False)
    (hnext : Continuation next) (hotherwise : Continuation otherwise)
    (ha : Converts w a otherwise next) :
    Converts w (.logicalNot a) next otherwise := by
  unfold Converts
  rw [bubbleNot.eq_4 w _ _ _ _ _ _ hnot hne]
  by_cases hw : w.refuse = true
  · exact .inl ⟨hw, if_pos hw⟩
  · rcases ha with ⟨hw', _⟩ | ⟨a', hok, ha⟩
    · exact absurd hw' hw
    refine .inr ⟨_, ?_, .not hnext hotherwise ha⟩
    rw [if_neg hw, hok]
    exact inContext_ok ha.logical ha.op hotherwise.logical hnext.logical

private theorem Converts.of_eval_eq {w : Warnings} {d e next otherwise : Data}
    (h : Converts w e next otherwise)
    (heq : bubbleNot w d next otherwise = bubbleNot w e next otherwise)
    (heval : ∀ env base, d.eval env base = e.eval env base) :
    Converts w d next otherwise := by
  unfold Converts
  rw [heq]
  rcases h with h | ⟨d', hok, hd⟩
  · exact .inl h
  · refine .inr ⟨d', hok, hd.logical, hd.op, hd.positive, ?_⟩
    intro env base
    rw [heval]
    exact hd.refines env base

private theorem eval_ne (x k : Data) (env : Env) (base : Base) :
    (Data.ne x k).eval env base = (Data.logicalNot (.eq x k)).eval env base := by
  rw [Data.eval_logicalNot, Data.eval_relational rfl, Data.eval_relational rfl]
  simp only [relOp, bne]
  cases x.num env.packet base == k.num env.packet base <;> rfl

private theorem converts_ne (w : Warnings) {x k : Data}
    (hx : x.numeric = true) (hk : k.isConstant = true)
    {next otherwise : Data} (hnext : Continuation next)
    (hotherwise : Continuation otherwise) :
    Converts w (.ne x k) next otherwise := by
  obtain ⟨result, hresult, hsound⟩ := singleBitTest_ok (a := x) hk
  cases result with
  | none =>
      have hnot := converts_not w (by simp) (by simp) hnext hotherwise
        (converts_eq w hx hk otherwise next)
      refine hnot.of_eval_eq ?_ (eval_ne x k)
      rw [bubbleNot, hresult]
      rfl
  | some k' =>
      obtain ⟨hk', heval⟩ := hsound k' rfl
      refine .inr ⟨.eq x k', by rw [bubbleNot, hresult],
        .of_eval_eq _ _ rfl (.inl rfl) (Data.positive_eq hx hk') ?_⟩
      intro env base
      rw [Data.eval_relational rfl, Data.eval_relational rfl]
      simp only [relOp, heval]

private theorem converts_or (w : Warnings) {a b next otherwise : Data}
    (hnext : Continuation next) (hotherwise : Continuation otherwise)
    (hb : Converts w b next otherwise)
    (ha : ∀ ext, Continuation ext → Converts w a next ext) :
    Converts w (.logicalOr a b) next otherwise := by
  rcases hb with ⟨hw, herror⟩ | ⟨b', hok, hb⟩
  · refine .inl ⟨hw, ?_⟩
    simp only [bubbleNot, herror, bind, Except.bind]
  have hext := inContext_ok hb.logical hb.op hnext.logical hotherwise.logical
  rcases ha _ (.extend hnext hotherwise hb) with ⟨hw, herror⟩ | ⟨a', haok, ha⟩
  · refine .inl ⟨hw, ?_⟩
    simp only [bubbleNot, hok, hext, herror, bind, Except.bind]
  · refine .inr ⟨.logicalOr a' b', ?_, .or hnext hb ha⟩
    simp only [bubbleNot, hok, hext, haok, bind, Except.bind]

private theorem converts_and (w : Warnings) {a b next otherwise : Data}
    (hnext : Continuation next) (hotherwise : Continuation otherwise)
    (hb : Converts w b next otherwise)
    (ha : ∀ ext, Continuation ext → Converts w a ext otherwise) :
    Converts w (.logicalAnd a b) next otherwise := by
  rcases hb with ⟨hw, herror⟩ | ⟨b', hok, hb⟩
  · refine .inl ⟨hw, ?_⟩
    simp only [bubbleNot, herror, bind, Except.bind]
  have hext := inContext_ok hb.logical hb.op hnext.logical hotherwise.logical
  rcases ha _ (.extend hnext hotherwise hb) with ⟨hw, herror⟩ | ⟨a', haok, ha⟩
  · refine .inl ⟨hw, ?_⟩
    simp only [bubbleNot, hok, hext, herror, bind, Except.bind]
  · refine .inr ⟨.logicalAnd a' b', ?_, .and hnext hb ha⟩
    simp only [bubbleNot, hok, hext, haok, bind, Except.bind]

/-- Every formula is converted in every context. -/
theorem bubbleNot_converts (w : Warnings) {d : Data}
    (h : Formula .equality d) {next otherwise : Data}
    (hnext : Continuation next) (hotherwise : Continuation otherwise) :
    Converts w d next otherwise := by
  induction hsize : d.size using Nat.strong_induction_on
    generalizing d next otherwise with
  | _ n ih =>
  have recurse : ∀ {e}, e.size < n → Formula .equality e →
      ∀ {next otherwise}, Continuation next → Continuation otherwise →
      Converts w e next otherwise := fun hlt he _ _ hn ho =>
    ih _ hlt he hn ho rfl
  subst hsize
  cases h with
  | test h =>
      obtain ⟨x, k, rfl | rfl, hx, hk⟩ := Data.isEquality_cases h
      · exact converts_eq w hx hk next otherwise
      · exact converts_ne w hx hk hnext hotherwise
  | decision d =>
      exact .inr ⟨.decision d, by simp only [bubbleNot],
        .of_eval_eq _ _ rfl (.inr rfl) ⟨rfl, rfl⟩ fun _ _ => rfl⟩
  | conform p =>
      exact .inr ⟨.conform p, by simp [bubbleNot, bind, Except.bind],
        .of_eval_eq _ _ rfl (.inl rfl) ⟨rfl, rfl⟩ fun _ _ => rfl⟩
  | count h => exact absurd h not_false
  | constant h => exact absurd h not_false
  | not _ ha =>
      rename_i a
      have hlt : a.size < (Data.logicalNot a).size := by
        simp only [Data.size]
        omega
      -- the two shortcuts of the source come before the general case
      cases ha with
      | not _ ha' =>
          rename_i a'
          have hlt' : a'.size < (Data.logicalNot (.logicalNot a')).size := by
            simp only [Data.size]
            omega
          refine (recurse hlt' ha' hnext hotherwise).of_eval_eq ?_ ?_
          · rw [bubbleNot]
          · intro env base
            rw [Data.eval_logicalNot, Data.eval_logicalNot, Eval.not_not]
      | test ht =>
          obtain ⟨x, k, rfl | rfl, hx, hk⟩ := Data.isEquality_cases ht
          · exact converts_not w (by simp) (by simp) hnext hotherwise
              (converts_eq w hx hk otherwise next)
          · refine (converts_eq w hx hk next otherwise).of_eval_eq ?_ ?_
            · rw [bubbleNot]
            · intro env base
              rw [Data.eval_logicalNot, eval_ne, Data.eval_logicalNot,
                Eval.not_not]
      | decision d =>
          exact converts_not w (by simp) (by simp) hnext hotherwise
            (recurse hlt (.decision d) hotherwise hnext)
      | conform p =>
          exact converts_not w (by simp) (by simp) hnext hotherwise
            (recurse hlt (.conform p) hotherwise hnext)
      | count h => exact absurd h not_false
      | constant h => exact absurd h not_false
      | and hx hy =>
          exact converts_not w (by simp) (by simp) hnext hotherwise
            (recurse hlt (.and hx hy) hotherwise hnext)
      | or hx hy =>
          exact converts_not w (by simp) (by simp) hnext hotherwise
            (recurse hlt (.or hx hy) hotherwise hnext)
  | and ha hb =>
      refine converts_and w hnext hotherwise
        (recurse ?_ hb hnext hotherwise)
        fun ext hext => recurse ?_ ha hext hotherwise
      all_goals
        simp only [Data.size]
        omega
  | or ha hb =>
      refine converts_or w hnext hotherwise
        (recurse ?_ hb hnext hotherwise)
        fun ext hext => recurse ?_ ha hnext hext
      all_goals
        simp only [Data.size]
        omega

private theorem continuation_true : Continuation (.unum 1) where
  logical := rfl
  positive := ⟨rfl, rfl⟩
  neverFalse env base := by
    rw [Data.eval_unum]
    exact neverFalse_true

private theorem continuation_default (d : Decision) :
    Continuation (.logicalOr (.logicalAnd (.decision d) (.unum 1)) (.unum 0))
    where
  logical := rfl
  positive := ⟨rfl, rfl⟩
  neverFalse env base := by
    rw [Data.eval_logicalOr, Data.eval_logicalAnd, Data.eval_decision]
    exact (decides_decide d).1

/-- A decision the expression reaches is still reached; nothing is said about
expressions that end in a truth value, except that they do not become false. -/
theorem iflibNot_outcome (w : Warnings) {e : Data}
    (he : Formula .equality e) (d : Decision) :
    (w.refuse = true ∧
      iflibNot w (.logicalOr e (.decision d)) = .error expensiveNegation) ∨
    ∃ d', iflibNot w (.logicalOr e (.decision d)) = .ok d' ∧
      d'.contains .logicalNot = false ∧ d'.contains .ne = false ∧
      ∀ env, (d'.outcome env).2 ≠ .truth false ∧
        ∀ r, ((Data.logicalOr e (.decision d)).outcome env).2 = .decided r →
          d'.outcome env = (Data.logicalOr e (.decision d)).outcome env := by
  have hext : inContext (.decision d) (.unum 1) (.unum 0) =
      .ok (.logicalOr (.logicalAnd (.decision d) (.unum 1)) (.unum 0)) :=
    inContext_ok rfl (.inr rfl) rfl rfl
  have hdefault : bubbleNot w (.decision d) (.unum 1) (.unum 0) =
      .ok (.decision d) := by
    simp only [bubbleNot]
  rcases bubbleNot_converts w he continuation_true (continuation_default d)
    with ⟨hw, herror⟩ | ⟨e', hok, hconv⟩
  · refine .inl ⟨hw, ?_⟩
    simp only [iflibNot, bubbleNot, hdefault, hext, herror, bind, Except.bind]
  · refine .inr ⟨.logicalOr e' (.decision d), ?_, ?_, ?_, fun env => ⟨?_, ?_⟩⟩
    · simp only [iflibNot, bubbleNot, hdefault, hext, hok, bind, Except.bind]
    · simp [Data.contains, hconv.positive.1]
    · simp [Data.contains, hconv.positive.2]
    · rw [Data.outcome, Data.eval_logicalOr, Data.eval_decision]
      exact NeverFalse.or_of_right _ (decides_decide d).1 _
    · intro r hr
      have href := hconv.refines env .start
      simp only [Data.eval_unum, Data.eval_logicalOr, Data.eval_logicalAnd,
        Data.eval_decision] at href
      simp only [Data.outcome, Data.eval_logicalOr, Data.eval_decision]
        at hr ⊢
      exact href [] r hr

theorem iflibNot_outcome_conform :
    let e := Data.logicalNot (.conform 0)
    ∃ d', iflibNot ⟨false, false, false⟩
        (.logicalOr e (.decision .drDrop)) = .ok d' ∧
      ∀ env, env.conforms [] 0 = true →
        d'.outcome env = ([], .decided .drDrop) := by
  intro e
  have he : Formula .equality e := .not trivial (.conform 0)
  rcases iflibNot_outcome ⟨false, false, false⟩ he .drDrop with
    ⟨hw, _⟩ | ⟨d', hok, _, _, hsound⟩
  · cases hw
  · refine ⟨d', hok, fun env henv => ?_⟩
    have hout : (Data.logicalOr e (.decision .drDrop)).outcome env =
        ([], .decided .drDrop) := by
      simp [Data.outcome, e, Data.eval, Eval.or, Eval.not, branch, henv,
        Eval.truth, Eval.decide]
    rw [← hout]
    exact (hsound env).2 .drDrop (by rw [hout])

/-- Both conform: the expression is true, the result decides to drop. -/
theorem iflibNot_true_becomes_decision :
    let e := Data.logicalOr
      (.logicalAnd (.logicalNot (.conform 0)) (.decision .drDrop)) (.conform 1)
    let d := Data.logicalOr e (.decision (.drClass 0))
    let env := Env.steady (fun _ _ => false) (fun _ => true)
    Formula .equality e ∧ d.outcome env = ([], .truth true) ∧
      (iflibNot ⟨false, false, false⟩ d).map (fun d' => d'.outcome env) =
        .ok ([], .decided .drDrop) := by
  intro e d env
  refine ⟨.or (.and (.not trivial (.conform 0)) (.decision _)) (.conform 1),
    rfl, ?_⟩
  simp only [d, e, iflibNot, bubbleNot]
  rfl

end Tcng
