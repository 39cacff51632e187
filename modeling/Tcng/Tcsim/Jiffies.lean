import Mathlib.Algebra.Ring.Nat
import Tcng.Tcsim.Timer

/-! `tcsim/jiffies.c`: sums of times. An `unsigned long` has `w` bits. -/

namespace Tcng.Tcsim

variable {w : Nat}

/-- `while (jiff->ujiffies > limit)` -/
def carryJiffies (w limit : Nat) (jiff : JiffVal) : JiffVal :=
  if limit < jiff.ujiffies then
    carryJiffies w limit ⟨(jiff.jiffies + 1) % 2 ^ w, jiff.ujiffies - 1000000⟩
  else jiff
termination_by jiff.ujiffies
decreasing_by exact Nat.sub_lt (by omega) (by omega)

def normalizeJiffval (w : Nat) (jiff : JiffVal) : JiffVal :=
  carryJiffies w 999999 jiff

def jvAdd (w : Nat) (a b : JiffVal) : JiffVal :=
  carryJiffies w 1000000
    ⟨(a.jiffies + b.jiffies) % 2 ^ w, (a.ujiffies + b.ujiffies) % 2 ^ w⟩

/-! ## Points in time -/

/-- The time in microjiffies. -/
def JiffVal.point (v : JiffVal) : Nat :=
  v.jiffies * 1000000 + v.ujiffies

/-- A time with one representation. -/
structure NormalJiffVal (w : Nat) extends JiffVal where
  fits : jiffies < 2 ^ w
  normal : ujiffies ≤ 999999

/-- The sum is in the same form, and denotes the sum of the two times. -/
structure SumDenoted (w : Nat) (a b : NormalJiffVal w) : Prop where
  normal : (jvAdd w a.toJiffVal b.toJiffVal).ujiffies ≤ 999999
  denoted : (jvAdd w a.toJiffVal b.toJiffVal).point =
    a.toJiffVal.point + b.toJiffVal.point

/-- The fractions do not add up to exactly one jiffy, and the jiffies fit with
the carry. -/
structure SumInRange (w : Nat) (a b : NormalJiffVal w) : Prop where
  fractions : a.ujiffies + b.ujiffies ≠ 1000000
  fits : (a.toJiffVal.point + b.toJiffVal.point) / 1000000 < 2 ^ w

/-- Below two jiffies the loop carries at most once. -/
theorem carryJiffies_once {limit : Nat} {v : JiffVal}
    (hv : v.ujiffies ≤ limit + 1000000) :
    carryJiffies w limit v =
      if limit < v.ujiffies then
        ⟨(v.jiffies + 1) % 2 ^ w, v.ujiffies - 1000000⟩
      else v := by
  rw [carryJiffies]
  split
  · rw [carryJiffies, if_neg]
    simp only [not_lt]
    omega
  · rfl

theorem jvAdd_eq (hw : 32 ≤ w) (a b : NormalJiffVal w) :
    jvAdd w a.toJiffVal b.toJiffVal =
      if 1000000 < a.ujiffies + b.ujiffies then
        ⟨((a.jiffies + b.jiffies) % 2 ^ w + 1) % 2 ^ w,
          a.ujiffies + b.ujiffies - 1000000⟩
      else ⟨(a.jiffies + b.jiffies) % 2 ^ w, a.ujiffies + b.ujiffies⟩ := by
  have ha := a.normal
  have hb := b.normal
  have hword : 2 ^ 32 ≤ 2 ^ w := Nat.pow_le_pow_right (by omega) hw
  have hmod : (a.ujiffies + b.ujiffies) % 2 ^ w = a.ujiffies + b.ujiffies :=
    Nat.mod_eq_of_lt (by omega)
  rw [jvAdd, hmod]
  exact carryJiffies_once (by
    show a.ujiffies + b.ujiffies ≤ _
    omega)

/-- With the bound of `normalize_jiffval` a sum overflows or is right. -/
theorem normalizeJiffval_normal {v : JiffVal} (hv : v.ujiffies ≤ 1999999)
    (hfits : v.jiffies + 1 < 2 ^ w) :
    (normalizeJiffval w v).ujiffies ≤ 999999 ∧
      (normalizeJiffval w v).point = v.point := by
  rw [normalizeJiffval, carryJiffies_once hv, Nat.mod_eq_of_lt hfits]
  split
  · simp only [JiffVal.point]
    omega
  · exact ⟨by omega, rfl⟩

private theorem overflow_iff (w j carry : Nat) :
    (j % 2 ^ w + carry) % 2 ^ w = j + carry ↔ j + carry < 2 ^ w := by
  rw [Nat.mod_add_mod]
  constructor
  · intro h
    rw [← h]
    exact Nat.mod_lt _ (Nat.two_pow_pos w)
  · exact Nat.mod_eq_of_lt

theorem sumDenoted_iff (hw : 32 ≤ w) (a b : NormalJiffVal w) :
    SumDenoted w a b ↔ SumInRange w a b := by
  have ha := a.normal
  have hb := b.normal
  have hsum := jvAdd_eq hw a b
  rcases Nat.lt_or_ge 1000000 (a.ujiffies + b.ujiffies) with hcarry | hless
  · rw [if_pos hcarry] at hsum
    have hfits := overflow_iff w (a.jiffies + b.jiffies) 1
    constructor
    · intro h
      have hdenoted := h.denoted
      rw [hsum] at hdenoted
      simp only [JiffVal.point] at hdenoted
      refine ⟨by omega, ?_⟩
      have hlt := hfits.mp (by omega)
      simp only [JiffVal.point]
      omega
    · intro h
      have hlt := h.fits
      simp only [JiffVal.point] at hlt
      have heq := hfits.mpr (by omega)
      constructor
      case normal =>
        rw [hsum]
        show a.ujiffies + b.ujiffies - 1000000 ≤ 999999
        omega
      case denoted =>
        rw [hsum, heq]
        simp only [JiffVal.point]
        omega
  · rw [if_neg (not_lt.mpr hless)] at hsum
    have hfits := overflow_iff w (a.jiffies + b.jiffies) 0
    simp only [Nat.add_zero] at hfits
    rw [Nat.mod_mod] at hfits
    constructor
    · intro h
      have hnormal := h.normal
      have hdenoted := h.denoted
      rw [hsum] at hnormal hdenoted
      simp only [JiffVal.point] at hnormal hdenoted
      refine ⟨by omega, ?_⟩
      have hlt := hfits.mp (by omega)
      simp only [JiffVal.point]
      omega
    · intro h
      have hfractions := h.fractions
      have hlt := h.fits
      simp only [JiffVal.point] at hlt
      have heq := hfits.mpr (by omega)
      constructor
      case normal =>
        rw [hsum]
        show a.ujiffies + b.ujiffies ≤ 999999
        omega
      case denoted =>
        rw [hsum, heq]
        simp only [JiffVal.point]
        omega

/-! ## The order of times -/

/-- Two times compare as the points they denote. -/
structure ComparesPoints (v v' : JiffVal) (p p' : Nat) : Prop where
  before : jiffvalCmp v v' < 0 ↔ p < p'
  equal : jiffvalCmp v v' = 0 ↔ p = p'
  timerLt : timerLt ⟨v.jiffies, v.ujiffies⟩ ⟨v'.jiffies, v'.ujiffies⟩ = true ↔
    p < p'
  timerLe : timerLe ⟨v.jiffies, v.ujiffies⟩ ⟨v'.jiffies, v'.ujiffies⟩ = true ↔
    p ≤ p'

theorem comparesPoints {v v' : JiffVal} (hv : v.ujiffies ≤ 999999)
    (hv' : v'.ujiffies ≤ 999999) : ComparesPoints v v' v.point v'.point := by
  constructor
  case before =>
    simp only [jiffvalCmp, JiffVal.point]
    grind
  case equal =>
    simp only [jiffvalCmp, JiffVal.point]
    grind
  case timerLt =>
    simp only [Tcsim.timerLt, JiffVal.point]
    grind
  case timerLe =>
    simp only [Tcsim.timerLe, JiffVal.point]
    grind

/-- A sum is what it should be exactly if its fractions are not one jiffy and
nothing overflows, and such sums are ordered as the times they denote. -/
theorem jvAdd_denotes_iff (hw : 32 ≤ w) (a b : NormalJiffVal w) :
    (SumDenoted w a b ↔ SumInRange w a b) ∧
      ∀ c d : NormalJiffVal w, SumInRange w a b → SumInRange w c d →
        ComparesPoints (jvAdd w a.toJiffVal b.toJiffVal)
          (jvAdd w c.toJiffVal d.toJiffVal)
          (a.toJiffVal.point + b.toJiffVal.point)
          (c.toJiffVal.point + d.toJiffVal.point) := by
  refine ⟨sumDenoted_iff hw a b, ?_⟩
  intro c d hab hcd
  have hsum := (sumDenoted_iff hw a b).mpr hab
  have hsum' := (sumDenoted_iff hw c d).mpr hcd
  rw [← hsum.denoted, ← hsum'.denoted]
  exact comparesPoints hsum.normal hsum'.normal

/-- Half a jiffy. -/
def halfJiffy : NormalJiffVal 64 := ⟨⟨0, 500000⟩, by decide, by decide⟩

/-- Two halves are left as a million microjiffies, which compares as less than
one jiffy. -/
theorem halfJiffy_twice :
    ¬SumDenoted 64 halfJiffy halfJiffy ∧
      jiffvalCmp (jvAdd 64 halfJiffy.toJiffVal halfJiffy.toJiffVal) ⟨1, 0⟩ =
        -1 := by
  have hsum : jvAdd 64 halfJiffy.toJiffVal halfJiffy.toJiffVal = ⟨0, 1000000⟩ := by
    rw [jvAdd, carryJiffies]
    rfl
  refine ⟨?_, by rw [hsum]; rfl⟩
  intro h
  have hnormal := h.normal
  rw [hsum] at hnormal
  exact absurd hnormal (by decide)

theorem halfJiffy_iff :
    SumDenoted 64 halfJiffy halfJiffy ↔ SumInRange 64 halfJiffy halfJiffy :=
  (jvAdd_denotes_iff (by decide) halfJiffy halfJiffy).1

end Tcng.Tcsim
