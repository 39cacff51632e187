import Tcng.Tree.SortClasses
import Tcng.Lib.Program

/-! The check of a `dsmark` qdisc, and the number of its indices
(`q_dsmark.c`). -/

namespace Tcng.Dsmark

/-- What the check reads of a class besides its number and its qdisc. -/
structure Class where
  child : Bool
  filters : Bool
  mask : Option (BitVec 32)
  value : Option (BitVec 32)

/-- The numbers of the classes, those that are left, and which of them have the
inner qdisc. -/
structure State where
  number : Nat → BitVec 32
  classes : List Nat
  qdisc : Nat → Bool

/-- A qdisc. The checks of other modules are left open, as is what
`class_selection_paths` does to the numbers. -/
structure Qdisc where
  name : String
  indices : Option (BitVec 32)
  mask : Option (BitVec 32)
  value : Option (BitVec 32)
  info : Nat → Class
  checkQdisc : Nat → Except Error Unit
  classSelectionPaths : Program State Error Unit
  anyClassRef : Nat → Bool
  selected : Nat → Bool
  checkFilters : Except Error Unit

/-- `for (tmp = prm_indices.v; tmp != 1; tmp >>= 1)`, where `tmp` has a sign. -/
def checkIndices : Nat → BitVec 32 → Except Error Unit
  | 0, _ => .error .outOfFuel
  | fuel + 1, tmp =>
      if tmp = 1 then .ok ()
      else if tmp &&& 1 ≠ 0 then .error (.error "indices must be a power of two")
      else checkIndices fuel (tmp.sshiftRight 1)

/-- The first pass over one class. -/
def checkClass (qdisc : Qdisc) (c : Nat) : Program State Error Unit := do
  let s ← .get
  let info := qdisc.info c
  .refuse (info.child = true)
    (.error (qdisc.name ++ " does not have nested classes"))
  .refuse (info.filters = true)
    (.error (qdisc.name ++ " classes don't have local filters"))
  match info.mask.or qdisc.mask with
  | some mask =>
      .refuse (0xff < mask)
        (.error ("mask 0x" ++ hex mask ++ " above limit 0xff"))
  | none => pure ()
  if s.qdisc c then do
    .refuse (∃ other ∈ s.classes.takeWhile (· ≠ c), s.qdisc other = true)
      (.error (qdisc.name ++ " has only one inner qdisc"))
    .lift (qdisc.checkQdisc c)
  else pure ()

/-- The exception for a qdisc with one class. -/
def onlyUnnumbered (s : State) : Option Nat :=
  match s.classes with
  | [c] => if s.number c = undefU32 then some c else none
  | _ => none

/-- `merge_shared` of `qdisc.c` -/
def mergeShared (qdisc : Qdisc) : Program State Error Unit := do
  let s ← .get
  let defaultZero := (s.classes.filter fun c =>
    s.qdisc c && s.number c == undefU32).getLast?
  let explicitZero := (s.classes.filter fun c => s.number c == 0).getLast?
  match onlyUnnumbered s, defaultZero, explicitZero with
  | some c, _, _ =>
      .modify fun s => { s with number := Function.update s.number c 0 }
  | none, none, _ => pure ()
  | none, some tmp, none =>
      .modify fun s => { s with number := Function.update s.number tmp 0 }
  | none, some tmp, some other => do
      .modify fun s => { s with
        classes := s.classes.erase tmp
        qdisc := Function.update s.qdisc other true }
      .refuse (qdisc.anyClassRef tmp = true) (.error
        "class has been merged and cannot be referenced by a variable")
      .refuse (qdisc.selected tmp = true)
        (.error "class has been merged and cannot be selected")

/-- The last pass over one class. -/
def checkNumber (qdisc : Qdisc) (c : Nat) : Program State Error Unit := do
  let s ← .get
  let info := qdisc.info c
  let mask := (info.mask.or qdisc.mask).getD 0xff
  let value := (info.value.or qdisc.value).getD 0
  .refuse (s.number c = undefU32)
    (.error (qdisc.name ++ " does not auto-assign class numbers"))
  match qdisc.indices with
  | some indices =>
      .refuse ((mask ≠ 0xff ∨ value ≠ 0) ∧ indices ≤ s.number c)
        (.error (qdisc.name ++ " class number (" ++
          toString (s.number c).toNat ++ ") must be < indices (" ++
          toString indices.toNat ++ ") if using parameters"))
  | none => pure ()

def dsmarkCheck (qdisc : Qdisc) (fuel : Nat) : Program State Error Unit := do
  match qdisc.indices with
  | some indices => .lift (checkIndices fuel indices)
  | none => pure ()
  let s ← .get
  .forEach (checkClass qdisc) s.classes
  qdisc.classSelectionPaths
  mergeShared qdisc
  let s ← .get
  .forEach (checkNumber qdisc) s.classes
  let _ ← .lift (sortClasses s.number fuel (Links.ofList s.classes))
  .lift qdisc.checkFilters

/-- `for (indices = 1; indices <= max_class; indices *= 2);` -/
def doubleIndices (maxClass : BitVec 32) : Nat → BitVec 32 → Except Error (BitVec 32)
  | 0, _ => .error .outOfFuel
  | fuel + 1, indices =>
      if indices ≤ maxClass then doubleIndices maxClass fuel (indices * 2)
      else .ok indices

/-- `max_class` -/
def maxClass (number : Nat → BitVec 32) (classes : List Nat) : BitVec 32 :=
  classes.foldl (fun max c => if max < number c then number c else max) 0

def getIndices (prmIndices : Option (BitVec 32)) (fuel : Nat)
    (number : Nat → BitVec 32) (classes : List Nat) : Except Error (BitVec 32) :=
  match prmIndices with
  | some v => .ok v
  | none => doubleIndices (maxClass number classes) fuel 1

/-! ## The check of `indices` -/

/-- The loop ends, and accepts the powers of two. -/
def IndicesChecked (indices : BitVec 32) : Prop :=
  ∃ fuel, checkIndices fuel indices ≠ .error .outOfFuel ∧
    (checkIndices fuel indices = .ok () ↔ ∃ k, indices.toNat = 2 ^ k)

private theorem and_one_ne_zero (n : BitVec 32) :
    n &&& 1 ≠ 0 ↔ n.toNat % 2 = 1 := by
  have hand : (n &&& 1).toNat = n.toNat % 2 := by
    rw [BitVec.toNat_and]
    exact Nat.and_one_is_mod _
  rw [ne_eq, ← BitVec.toNat_inj, hand]
  simp

private theorem toNat_halved {n : BitVec 32} (hsign : n.toNat < 2 ^ 31) :
    (n.sshiftRight 1).toNat = n.toNat / 2 := by
  have hmsb : n.msb = false := by
    rw [BitVec.msb_eq_decide]
    simpa using hsign
  rw [BitVec.sshiftRight_eq_of_msb_false hmsb, BitVec.toNat_ushiftRight,
    Nat.shiftRight_eq_div_pow, Nat.pow_one]

private theorem toNat_halved_signed {n : BitVec 32} (hsign : 2 ^ 31 ≤ n.toNat) :
    (n.sshiftRight 1).toNat = n.toNat / 2 + 2 ^ 31 := by
  have hmsb : n.msb = true := by
    rw [BitVec.msb_eq_decide]
    simpa using hsign
  have hlt := n.isLt
  rw [BitVec.sshiftRight_eq_of_msb_true hmsb, BitVec.toNat_not,
    BitVec.toNat_ushiftRight, BitVec.toNat_not, Nat.shiftRight_eq_div_pow]
  omega

private theorem odd_power {n : Nat} (hodd : n % 2 = 1) (hne : n ≠ 1) :
    ¬∃ k, n = 2 ^ k := by
  rintro ⟨k, rfl⟩
  cases k with
  | zero => exact hne rfl
  | succ k =>
      rw [Nat.pow_succ] at hodd
      omega

private theorem even_power {n : Nat} (heven : n % 2 = 0) (hpos : 0 < n) :
    (∃ k, n / 2 = 2 ^ k) ↔ ∃ k, n = 2 ^ k := by
  constructor
  · rintro ⟨k, hk⟩
    refine ⟨k + 1, ?_⟩
    rw [Nat.pow_succ, ← hk]
    omega
  · rintro ⟨k, rfl⟩
    cases k with
    | zero => omega
    | succ k => exact ⟨k, by rw [Nat.pow_succ, Nat.mul_div_cancel _ (by omega)]⟩

/-- Without a sign the loop halves the number. -/
theorem checkIndices_positive {fuel : Nat} {tmp : BitVec 32}
    (hpos : 0 < tmp.toNat) (hsign : tmp.toNat < 2 ^ 31)
    (hfuel : tmp.toNat ≤ fuel) :
    checkIndices fuel tmp ≠ .error .outOfFuel ∧
      (checkIndices fuel tmp = .ok () ↔ ∃ k, tmp.toNat = 2 ^ k) := by
  induction fuel generalizing tmp with
  | zero => omega
  | succ fuel ih =>
      rw [checkIndices]
      split
      · next hone =>
        subst hone
        exact ⟨fun h => (by cases h), fun _ => ⟨0, rfl⟩, fun _ => rfl⟩
      · next hone =>
        have hne : tmp.toNat ≠ 1 := fun h => hone (BitVec.toNat_inj.mp h)
        split
        · next hodd =>
          have hnot := odd_power ((and_one_ne_zero tmp).mp hodd) hne
          exact ⟨fun h => (by cases h), fun h => (by cases h),
            fun h => absurd h hnot⟩
        · next heven =>
          rw [and_one_ne_zero] at heven
          have hhalf := toNat_halved hsign
          have hrest := @ih (tmp.sshiftRight 1) (by omega) (by omega) (by omega)
          rw [hhalf, even_power (by omega) hpos] at hrest
          exact hrest

/-- The sign stays, and ones come in behind it. -/
theorem checkIndices_negative {fuel : Nat} {tmp : BitVec 32}
    (hsign : 2 ^ 31 ≤ tmp.toNat) (hfuel : 2 ^ 32 - tmp.toNat ≤ fuel) :
    checkIndices fuel tmp =
      .error (.error "indices must be a power of two") := by
  induction fuel generalizing tmp with
  | zero => have := tmp.isLt; omega
  | succ fuel ih =>
      have hlt := tmp.isLt
      have hone : tmp ≠ 1 := by
        rintro rfl
        simp at hsign
      rw [checkIndices, if_neg hone]
      split
      · rfl
      · next heven =>
        rw [and_one_ne_zero] at heven
        have hhalf := toNat_halved_signed hsign
        exact ih (by omega) (by omega)

theorem checkIndices_signed {tmp : BitVec 32} (hsign : 2 ^ 31 ≤ tmp.toNat)
    (fuel : Nat) : checkIndices fuel tmp ≠ .ok () := by
  induction fuel generalizing tmp with
  | zero => exact fun h => (by cases h)
  | succ fuel ih =>
      have hone : tmp ≠ 1 := by
        rintro rfl
        simp at hsign
      rw [checkIndices, if_neg hone]
      split
      · exact fun h => (by cases h)
      · apply ih
        rw [toNat_halved_signed hsign]
        omega

theorem checkIndices_zero (fuel : Nat) :
    checkIndices fuel 0 = .error .outOfFuel := by
  induction fuel with
  | zero => rfl
  | succ fuel ih =>
      rw [checkIndices, if_neg (by decide), if_neg (by decide)]
      exact ih

/-- A power of two with a sign is 2^31. -/
private theorem signed_power {n : Nat} (hsign : 2 ^ 31 ≤ n) (hn : n < 2 ^ 32) :
    (∃ k, n = 2 ^ k) ↔ n = 2 ^ 31 := by
  constructor
  · rintro ⟨k, rfl⟩
    have hlow := (Nat.pow_le_pow_iff_right (by omega)).mp hsign
    have hhigh := (Nat.pow_lt_pow_iff_right (by omega)).mp hn
    rw [show k = 31 by omega]
  · exact fun h => ⟨31, h⟩

theorem indicesChecked_iff (indices : BitVec 32) :
    IndicesChecked indices ↔ indices ≠ 0 ∧ indices ≠ 0x80000000 := by
  rcases Nat.lt_or_ge indices.toNat (2 ^ 31) with hsign | hsign
  · rcases Nat.eq_zero_or_pos indices.toNat with hzero | hpos
    · obtain rfl : indices = 0 := BitVec.toNat_inj.mp hzero
      constructor
      · rintro ⟨fuel, hends, -⟩
        exact absurd (checkIndices_zero fuel) hends
      · exact fun h => absurd rfl h.1
    · constructor
      · intro _
        constructor
        · rintro rfl
          exact absurd hpos (by decide)
        · rintro rfl
          exact absurd hsign (by decide)
      · exact fun _ => ⟨_, checkIndices_positive hpos hsign le_rfl⟩
  · have hpower := signed_power hsign indices.isLt
    have hzero : indices ≠ 0 := by
      rintro rfl
      exact absurd hsign (by decide)
    have hvalue : indices = 0x80000000 ↔ indices.toNat = 2 ^ 31 := by
      rw [← BitVec.toNat_inj]
      rfl
    rw [ne_eq indices 0x80000000, hvalue, ← hpower]
    constructor
    · rintro ⟨fuel, hends, haccepts⟩
      refine ⟨hzero, fun hexists => ?_⟩
      exact checkIndices_signed hsign fuel (haccepts.mpr hexists)
    · rintro ⟨-, hnot⟩
      refine ⟨2 ^ 32 - indices.toNat, ?_, ?_⟩
      · rw [checkIndices_negative hsign le_rfl]
        exact fun h => (by cases h)
      · rw [checkIndices_negative hsign le_rfl]
        exact ⟨fun h => (by cases h), fun h => absurd h hnot⟩

/-! ## The number of indices -/

/-- The loop ends with the least power of two above all numbers. -/
def IndicesFound (number : Nat → BitVec 32) (classes : List Nat) : Prop :=
  ∃ fuel indices k, getIndices none fuel number classes = .ok indices ∧
    indices.toNat = 2 ^ k ∧ (∀ c ∈ classes, number c < indices) ∧
    ∀ j, (∀ c ∈ classes, (number c).toNat < 2 ^ j) → k ≤ j

private theorem foldl_max (number : Nat → BitVec 32) (classes : List Nat)
    (max : BitVec 32) {bound : Nat} :
    (classes.foldl (fun max c => if max < number c then number c else max)
      max).toNat < bound ↔
      max.toNat < bound ∧ ∀ c ∈ classes, (number c).toNat < bound := by
  induction classes generalizing max with
  | nil => simp
  | cons c classes ih =>
      rw [List.foldl_cons, ih, List.forall_mem_cons, ← and_assoc]
      apply and_congr_left
      intro _
      split
      · next hlt => rw [BitVec.lt_def] at hlt; omega
      · next hle => rw [BitVec.lt_def] at hle; omega

theorem maxClass_lt (number : Nat → BitVec 32) (classes : List Nat) {bound : Nat}
    (hbound : 0 < bound) :
    (maxClass number classes).toNat < bound ↔
      ∀ c ∈ classes, (number c).toNat < bound := by
  rw [maxClass, foldl_max]
  exact ⟨fun h => h.2, fun h => ⟨hbound, h⟩⟩

/-- Doubling reaches a number above the largest class. -/
theorem doubleIndices_ends {max : BitVec 32} (hmax : max.toNat < 2 ^ 31)
    {fuel k : Nat} {indices : BitVec 32} (hindices : indices.toNat = 2 ^ k)
    (hk : k ≤ 31) (hfuel : 32 - k ≤ fuel)
    (hleast : ∀ j, max.toNat < 2 ^ j → k ≤ j) :
    ∃ result k', doubleIndices max fuel indices = .ok result ∧
      result.toNat = 2 ^ k' ∧ max < result ∧ ∀ j, max.toNat < 2 ^ j → k' ≤ j := by
  induction fuel generalizing k indices with
  | zero => omega
  | succ fuel ih =>
      rw [doubleIndices]
      split
      · next hle =>
        rw [BitVec.le_def, hindices] at hle
        have hless : k < 31 := by
          have := lt_of_le_of_lt hle hmax
          exact (Nat.pow_lt_pow_iff_right (by omega)).mp this
        apply ih (k := k + 1) _ hless (by omega)
        · intro j hj
          exact (Nat.pow_lt_pow_iff_right (by omega)).mp (lt_of_le_of_lt hle hj)
        · have hpow : 2 ^ (k + 1) < 2 ^ 32 :=
            Nat.pow_lt_pow_right (by omega) (by omega)
          rw [BitVec.toNat_mul, hindices]
          rw [Nat.pow_succ] at hpow ⊢
          exact Nat.mod_eq_of_lt hpow
      · next hgt => exact ⟨indices, k, rfl, hindices, by bv_omega, hleast⟩

/-- Above 2^31 doubling gets to zero, and stays there. -/
theorem doubleIndices_outOfFuel {max : BitVec 32} (hmax : 2 ^ 31 ≤ max.toNat)
    (fuel : Nat) {indices : BitVec 32}
    (hindices : indices = 0 ∨ ∃ k ≤ 31, indices.toNat = 2 ^ k) :
    doubleIndices max fuel indices = .error .outOfFuel := by
  induction fuel generalizing indices with
  | zero => rfl
  | succ fuel ih =>
      have hle : indices ≤ max := by
        rw [BitVec.le_def]
        rcases hindices with rfl | ⟨k, hk, hpow⟩
        · simp
        · rw [hpow]
          exact le_trans (Nat.pow_le_pow_right (by omega) hk) hmax
      rw [doubleIndices, if_pos hle]
      apply ih
      rcases hindices with rfl | ⟨k, hk, hpow⟩
      · exact .inl rfl
      · rcases Nat.lt_or_ge k 31 with hless | hlast
        · right
          have hlt : 2 ^ (k + 1) < 2 ^ 32 :=
            Nat.pow_lt_pow_right (by omega) (by omega)
          refine ⟨k + 1, hless, ?_⟩
          rw [BitVec.toNat_mul, hpow]
          rw [Nat.pow_succ] at hlt ⊢
          exact Nat.mod_eq_of_lt hlt
        · left
          obtain rfl : k = 31 := by omega
          bv_omega

theorem indicesFound_iff (number : Nat → BitVec 32) (classes : List Nat) :
    IndicesFound number classes ↔ ∀ c ∈ classes, (number c).toNat < 2 ^ 31 := by
  rw [← maxClass_lt number classes (by decide)]
  constructor
  · rintro ⟨fuel, indices, k, hends, -⟩
    by_contra hlarge
    rw [getIndices, doubleIndices_outOfFuel (not_lt.mp hlarge) fuel
      (.inr ⟨0, by omega, rfl⟩)] at hends
    cases hends
  · intro hmax
    have hstart : (1 : BitVec 32).toNat = 2 ^ 0 := rfl
    obtain ⟨indices, k, hends, hpow, habove, hleast⟩ :=
      doubleIndices_ends hmax hstart (by omega) (le_refl 32)
        (fun _ _ => Nat.zero_le _)
    refine ⟨32, indices, k, hends, hpow, ?_, ?_⟩
    · rw [BitVec.lt_def, maxClass_lt number classes
        (by rw [hpow]; exact Nat.two_pow_pos k)] at habove
      exact habove
    · intro j hj
      exact hleast j ((maxClass_lt number classes (Nat.two_pow_pos j)).mpr hj)

/-- Both loops do what they are for except at the ends of what they can meet. -/
theorem indices_checked_and_found_iff (indices : BitVec 32)
    (number : Nat → BitVec 32) (classes : List Nat) :
    (IndicesChecked indices ↔ indices ≠ 0 ∧ indices ≠ 0x80000000) ∧
      (IndicesFound number classes ↔
        ∀ c ∈ classes, (number c).toNat < 2 ^ 31) :=
  ⟨indicesChecked_iff indices, indicesFound_iff number classes⟩

/-- One class, without parameters. -/
def oneClass : Qdisc where
  name := "dsmark"
  indices := none
  mask := none
  value := none
  info _ := ⟨false, false, none, none⟩
  checkQdisc _ := .ok ()
  classSelectionPaths := pure ()
  anyClassRef _ := false
  selected _ := false
  checkFilters := .ok ()

/-- The check accepts the class number 2^31, but the loop for the indices does
not end; nor does the one that checks an `indices` of zero. -/
theorem oneClass_outOfFuel :
    dsmarkCheck oneClass 2 ⟨fun _ => 0x80000000, [0], fun _ => false⟩ =
        (.ok (), ⟨fun _ => 0x80000000, [0], fun _ => false⟩) ∧
      ¬IndicesFound (fun _ => 0x80000000) [0] ∧ ¬IndicesChecked 0 := by
  refine ⟨rfl, ?_, ?_⟩
  · intro h
    have hsmall := (indicesFound_iff _ _).mp h 0 (by decide)
    exact absurd hsmall (by decide)
  · intro h
    exact ((indicesChecked_iff 0).mp h).1 rfl

end Tcng.Dsmark
