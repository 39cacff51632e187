import Tcng.Op
import Tcng.Shared.U128

/-! Construction of operators (`op_binary` and `op_ternary` of `op.c`):
constants are folded, anything else becomes an operator. -/

namespace Tcng

/-- `IP_ADDRESS` -/
def isAddress (d : Data) : Bool := d.type == .ipv4 || d.type == .ipv6

def mixTypes (dsc : OpDsc) (a b : Data) : Except Error DataType :=
  if a.type = b.type then .ok a.type
  else if a.type = .unum then .ok b.type
  else if b.type = .unum then .ok a.type
  else .error (.typeError2 dsc a.type b.type)

/-- A constant of 32 bits. -/
def Data.number (d : Data) : Op.Number := ⟨d.type = .ipv4, d.unumValue⟩

def Op.Number.data (n : Op.Number) : Data :=
  if n.ipv4 then .ipv4 n.unum else .unum n.unum

/-- `op_plus` and `op_minus` (`additive_eval`) -/
def additiveData (dsc : OpDsc) (a b : Data) : Except Error Data :=
  if integerNumber a ∧ b = .unum 0 then .ok a
  else if dsc = .plus ∧ integerNumber b ∧ a = .unum 0 then .ok b
  else if integerNumber a ∧ integerNumber b then
    if a.isOp ∨ b.isOp then do
      let t ← mixTypes dsc a b
      return .op dsc t a b .none
    else if a.type = .ipv6 ∨ b.type = .ipv6 then do
      let x ← a.toIpv6
      let y ← b.toIpv6
      return .ipv6 (if dsc = .plus then x.add y else x.sub y)
    else do
      let n ← Op.additiveEval dsc a.number b.number
      return n.data
  else .error (.typeError2 dsc a.type b.type)

/-- `op_mult` (`mult_eval`) -/
def multData (a b : Data) : Except Error Data :=
  if isAddress a ∨ isAddress b then .error (.typeError2 .mult a.type b.type)
  else if integerNumber a ∧ integerNumber b then
    if a.isOp ∨ b.isOp then do
      let t ← mixTypes .mult a b
      return .op .mult t a b .none
    else do
      let n ← Op.multEval a.number b.number
      return n.data
  else .error (.typeError2 .mult a.type b.type)

/-! `%`, `&`, `|` and `^`. -/

def wideOp (dsc : OpDsc) (x y : U128) : U128 :=
  match dsc with
  | .and => x.and y
  | .or => x.or y
  | _ => x.xor y

/-- `unum2_eval` -/
def unum2Data (dsc : OpDsc) (a b : Data) : Except Error Data :=
  if !integerNumber a then .error (.typeError2 dsc a.type b.type)
  else if !integerNumber b then .error (.typeError2 dsc a.type b.type)
  else if (isAddress a ∨ isAddress b) ∧ dsc = .mod then
    .error (.typeError2 dsc a.type b.type)
  else do
    let t ← mixTypes dsc a b
    if a.isOp ∨ b.isOp then return .op dsc t a b .none
    else if t = .ipv6 then do
      let x ← a.toIpv6
      let y ← b.toIpv6
      return .ipv6 (wideOp dsc x y)
    else do
      let n ← Op.unum2Eval dsc a.number b.number
      return n.data

def typeError3 (a b c : Data) : Error :=
  .error ("invalid types for operator \"mask (::)\" (" ++ typeName a.type ++
    ", " ++ typeName b.type ++ ", and " ++ typeName c.type ++ ")")

/-- `op_mask` (`mask_eval`); the machine takes shift counts of 32-bit words
modulo 32. -/
def maskOp (a b c : Data) : Except Error Data :=
  if integerNumber a = false ∨ (b.type ≠ .unum ∧ b.type ≠ .none) ∨
      (c.type ≠ .unum ∧ c.type ≠ .none) then .error (typeError3 a b c)
  else if b.isOp ∨ c.isOp then .ok (.op .mask a.type a b c)
  else
    let bits := (if b.type = .none then 0 else b.unumValue) +
      (if c.type = .none then 0 else c.unumValue)
    let upper := (if c.type = .unum then c else b).unumValue
    if a.type = .ipv6 then
      if (128 : BitVec 32).slt bits then
        .error (.error "mask exceeds 128 bit range")
      else
        let mask := ((U128.ofBitVec32 1).shiftLeft upper).sub32 1
        unum2Data .and a
          (.ipv6 (if b.type = .unum then mask.shiftLeft (128 - bits) else mask))
    else
      if (32 : BitVec 32).slt bits then
        .error (.error "mask exceeds 32 bit range")
      else
        let mask : BitVec 32 := if upper = 32 then .allOnes 32
          else ((1 : BitVec 32) <<< (upper % 32)) - 1
        unum2Data .and a
          (.unum (if b.type = .unum then mask <<< ((32 - bits) % 32) else mask))

/-- `op_div` (`div_eval`); the length of a prefix may follow an address. -/
def divData (a b : Data) : Except Error Data :=
  if isAddress a ∧ b.type = .unum then maskOp a b .none
  else if isAddress a ∨ isAddress b then
    .error (.typeError2 .div a.type b.type)
  else if integerNumber a ∧ integerNumber b then
    if a.isOp ∨ b.isOp then do
      let t ← mixTypes .div a b
      return .op .div t a b .none
    else do
      let n ← Op.divEval a.number b.number
      return n.data
  else .error (.typeError2 .div a.type b.type)

/-- `op_binary` on `op_shift_left` and `op_shift_right` (`shift_eval`). -/
def shiftData (dsc : OpDsc) (a b : Data) : Except Error Data :=
  if !integerNumber a then .error (.typeError2 dsc a.type b.type)
  else if !integerNumber b then .error (.typeError2 dsc a.type b.type)
  else if b.type = .ipv4 ∨ b.type = .ipv6 then
    .error (.typeError2 dsc a.type b.type)
  else if a.isOp ∨ b.isOp then .ok (.op dsc a.type a b .none)
  else
    match a with
    | .ipv6 x =>
        if dsc = .shiftLeft then
          if (128 ≤ b.unumValue ∧ x.isZero = false) ∨
              (x.shiftRight (128 - b.unumValue)).isZero = false then
            .error (.error "left shift overflows 128 bit range")
          else .ok (.ipv6 (x.shiftLeft b.unumValue))
        else .ok (.ipv6 (x.shiftRight b.unumValue))
    | a => do
        let n ← Op.shiftEval dsc ⟨a.type = .ipv4, a.unumValue⟩
          (Op.dataUnum b.unumValue)
        return if n.ipv4 then .ipv4 n.unum else .unum n.unum

/-- What `eval_cmp` makes of the result of `u128_cmp`. -/
def evalCmp (dsc : OpDsc) (cmp : Int) : Bool :=
  if cmp < 0 then dsc = .lt ∨ dsc = .le ∨ dsc = .ne
  else if 0 < cmp then dsc = .gt ∨ dsc = .ge ∨ dsc = .ne
  else dsc = .eq ∨ dsc = .ge ∨ dsc = .le

/-- `==`, `!=`, `>`, `>=`, `<` and `<=` (`rel_eval`) -/
def relData (dsc : OpDsc) (a b : Data) : Except Error Data :=
  if integerNumber a ∧ integerNumber b then
    if a.isOp ∨ b.isOp then .ok (.op dsc .unum a b .none)
    else do
      let t ← mixTypes dsc a b
      if t = .ipv6 then do
        let x ← a.toIpv6
        let y ← b.toIpv6
        return boolUnum (evalCmp dsc (x.cmp y))
      else return (Op.relEval dsc a.number b.number).data
  else .error (.typeError2 dsc a.type b.type)

/-- `op_binary` on the operators a user can write. -/
def opBinary (dsc : OpDsc) (a b : Data) : Except Error Data :=
  match dsc with
  | .plus | .minus => additiveData dsc a b
  | .mult => multData a b
  | .div => divData a b
  | .mod | .and | .or | .xor => unum2Data dsc a b
  | .shiftLeft | .shiftRight => shiftData dsc a b
  | .eq | .ne | .gt | .ge | .lt | .le => relData dsc a b
  | .logicalAnd | .logicalOr => andOrEval dsc a b
  | _ => .error (.typeError2 dsc a.type b.type)

/-- A shift of a constant is a constant. -/
theorem shiftData_cases {dsc : OpDsc} {x e : Data} {n : BitVec 32}
    (h : shiftData dsc x (.unum n) = .ok e) :
    e = .op dsc x.type x (.unum n) .none ∨ e.isOp = false := by
  simp only [shiftData] at h
  split at h
  · cases h
  split at h
  · cases h
  split at h
  · cases h
  split at h
  · exact .inl (Except.ok.inj h).symm
  right
  split at h
  · split at h
    · split at h
      · cases h
      · rw [← Except.ok.inj h]
        rfl
    · rw [← Except.ok.inj h]
      rfl
  · obtain ⟨y, -, hy⟩ := bind_eq_ok.mp h
    rw [← Except.ok.inj hy]
    split <;> rfl

/-! Operators on numbers keep the numbers. -/

theorem toIpv6_toNat {d : Data} {x : U128} (h : d.toIpv6 = .ok x)
    (packet : Packet) (base : Base) : x.toNat = d.num packet base := by
  cases d with
  | unum n | ipv4 n =>
      cases h
      exact U128.toNat_ofBitVec32 n
  | ipv6 n => cases h; rfl
  | _ => cases h

theorem unum2Data_op {dsc : OpDsc} {a b : Data} {t : DataType}
    (hdsc : dsc ≠ .mod) (ha : integerNumber a = true)
    (hb : integerNumber b = true) (hop : a.isOp = true)
    (ht : mixTypes dsc a b = .ok t) :
    unum2Data dsc a b = .ok (.op dsc t a b .none) := by
  simp [unum2Data, ha, hb, hdsc, hop, ht, bind, Except.bind, pure, Except.pure]

/-- Integers of both types go together. -/
theorem mixTypes_constant {a b : Data} (dsc : OpDsc)
    (ha : a.type = .unum ∨ a.type = .ipv6) (hb : b.isConstant = true) :
    ∃ t, mixTypes dsc a b = .ok t ∧ (t = .unum ∨ t = .ipv6) := by
  have hbt : b.type = .unum ∨ b.type = .ipv6 := by
    cases b with
    | unum => exact .inl rfl
    | ipv6 => exact .inr rfl
    | _ => cases hb
  unfold mixTypes
  rcases ha with ha | ha <;> rcases hbt with hbt | hbt <;>
    rw [ha, hbt] <;>
    first | exact ⟨_, rfl, .inl rfl⟩ | exact ⟨_, rfl, .inr rfl⟩

theorem integerNumber_of_constant {d : Data} (h : d.isConstant = true) :
    integerNumber d = true := by
  cases d <;> first | rfl | cases h

theorem mixTypes_narrow {dsc : OpDsc} {a b : Data} {t : DataType}
    (h : mixTypes dsc a b = .ok t) (ht : t ≠ .ipv6) :
    a.type ≠ .ipv6 ∧ b.type ≠ .ipv6 := by
  unfold mixTypes at h
  split at h
  · rename_i heq
    cases h
    exact ⟨ht, heq ▸ ht⟩
  split at h
  · rename_i _ hunum
    cases h
    exact ⟨by rw [hunum]; nofun, ht⟩
  split at h
  · rename_i _ _ hunum
    cases h
    exact ⟨ht, by rw [hunum]; nofun⟩
  · cases h

private theorem number_num {d : Data} (h : ¬(!integerNumber d) = true)
    (hop : ¬d.isOp = true) (ht : d.type ≠ .ipv6) (packet : Packet)
    (base : Base) : d.number.unum.toNat = d.num packet base := by
  cases d with
  | unum | ipv4 => rfl
  | ipv6 => exact absurd rfl ht
  | op => exact absurd rfl hop
  | _ => exact absurd rfl h

theorem relData_op {dsc : OpDsc} {a b : Data} (ha : integerNumber a = true)
    (hb : integerNumber b = true) (hop : a.isOp = true) :
    relData dsc a b = .ok (.op dsc .unum a b .none) := by
  rw [relData, if_pos ⟨ha, hb⟩, if_pos (.inl hop)]

/-- A mask leaves the bits it has in common with the number. -/
theorem num_andData {a b r : Data} (h : unum2Data .and a b = .ok r)
    (packet : Packet) (base : Base) :
    r.num packet base = a.num packet base &&& b.num packet base := by
  unfold unum2Data at h
  split at h
  · cases h
  rename_i ha
  split at h
  · cases h
  rename_i hb
  split at h
  · cases h
  obtain ⟨t, ht, h⟩ := bind_eq_ok.mp h
  split at h
  · cases h
    rfl
  rename_i hop
  split at h
  · obtain ⟨x, hx, h⟩ := bind_eq_ok.mp h
    obtain ⟨y, hy, h⟩ := bind_eq_ok.mp h
    cases h
    rw [← toIpv6_toNat hx packet base, ← toIpv6_toNat hy packet base]
    exact U128.toNat_and x y
  · rename_i hwide
    obtain ⟨n, hn, h⟩ := bind_eq_ok.mp h
    cases h
    obtain ⟨hta, htb⟩ := mixTypes_narrow ht hwide
    obtain ⟨hopa, hopb⟩ := not_or.mp hop
    rw [← number_num ha hopa hta packet base,
      ← number_num hb hopb htb packet base]
    have hvalue : n = ⟨Op.mixTypes a.number b.number,
        a.number.unum &&& b.number.unum⟩ := by
      simpa [Op.unum2Eval, Op.unum2Op] using hn.symm
    subst hvalue
    cases Op.mixTypes a.number b.number <;> exact BitVec.toNat_and _ _

end Tcng
