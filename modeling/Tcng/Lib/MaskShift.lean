import Mathlib.Data.Nat.Bitwise
import Tcng.Lib.BitOrder

/-! Masks and shifts one after the other, on numbers of `w` bits: together they
are one mask and one shift. The first step of a list is done last. -/

namespace MaskShift

inductive Step
  | mask (m : Nat)
  | left (n : Nat)
  | right (n : Nat)

namespace Step

def act : Step → Nat → Nat
  | mask m, v => v &&& m
  | left n, v => v * 2 ^ n
  | right n, v => v / 2 ^ n

/-- The mask before the step that does what `m` does after it. -/
def back (w : Nat) : Step → Nat → Nat
  | mask m', m => m &&& m'
  | left n, m => m / 2 ^ n
  | right n, m => m * 2 ^ n % 2 ^ w

def lefts : Step → Nat
  | left n => n
  | _ => 0

def rights : Step → Nat
  | right n => n
  | _ => 0

end Step

def value (ss : List Step) (v : Nat) : Nat := ss.foldr Step.act v

/-- What is left of `v` where no more than `w` bits are kept. -/
def kept (w : Nat) (ss : List Step) (v : Nat) : Nat :=
  ss.foldr (fun s v => s.act v % 2 ^ w) v

/-- The mask for all steps. -/
def back (w : Nat) (ss : List Step) (m : Nat) : Nat :=
  ss.foldl (fun m s => s.back w m) m

def lefts (ss : List Step) : Nat := (ss.map Step.lefts).sum

def rights (ss : List Step) : Nat := (ss.map Step.rights).sum

/-- There are never more than `w` bits. -/
def Fits (w : Nat) : List Step → Nat → Prop
  | [], v => v < 2 ^ w
  | s :: ss, v => value (s :: ss) v < 2 ^ w ∧ Fits w ss v

theorem Fits.lt {w : Nat} {ss : List Step} {v : Nat} (h : Fits w ss v) :
    value ss v < 2 ^ w := by
  cases ss with
  | nil => exact h
  | cons => exact h.1

section

variable {w : Nat}

private theorem testBit_of_lt {v i : Nat} (h : v < 2 ^ w) (hi : w ≤ i) :
    v.testBit i = false :=
  Nat.testBit_lt_two_pow (Nat.lt_of_lt_of_le h
    (Nat.pow_le_pow_right (by decide) hi))

private theorem testBit_back_right (m n i : Nat) :
    (m * 2 ^ n % 2 ^ w).testBit i =
      (decide (i < w) && (decide (n ≤ i) && m.testBit (i - n))) := by
  rw [Nat.testBit_mod_two_pow, Nat.testBit_mul_two_pow]

theorem Step.back_lt (s : Step) {m : Nat} (hm : m < 2 ^ w) :
    s.back w m < 2 ^ w := by
  cases s with
  | mask m' => exact Nat.lt_of_le_of_lt Nat.and_le_left hm
  | left n => exact Nat.lt_of_le_of_lt (Nat.div_le_self m _) hm
  | right n => exact Nat.mod_lt _ (Nat.two_pow_pos w)

@[simp] theorem Step.back_zero (s : Step) : s.back w 0 = 0 := by
  cases s with
  | mask m' => exact Nat.zero_and m'
  | left n => exact Nat.zero_div _
  | right n => simp [Step.back]

theorem back_zero (ss : List Step) : back w ss 0 = 0 := by
  induction ss with
  | nil => rfl
  | cons s ss ih =>
      rw [back, List.foldl_cons, Step.back_zero]
      exact ih

/-! ## Values -/

private theorem Step.act_and (s : Step) {y : Nat} (hy : y < 2 ^ w) (m : Nat) :
    (s.act y &&& m) * 2 ^ s.rights = (y &&& s.back w m) * 2 ^ s.lefts := by
  cases s with
  | mask m' =>
      unfold act back
      rw [Nat.and_assoc, Nat.and_comm m']
      rfl
  | left n =>
      have hand : y * 2 ^ n &&& m = (y &&& m / 2 ^ n) * 2 ^ n := by
        apply Nat.eq_of_testBit_eq
        intro i
        rw [Nat.testBit_and, Nat.testBit_mul_two_pow, Nat.testBit_mul_two_pow,
          Nat.testBit_and, Nat.testBit_div_two_pow]
        by_cases hi : n ≤ i
        · rw [Nat.sub_add_cancel hi, Bool.and_assoc]
        · simp [hi]
      exact (Nat.mul_one _).trans hand
  | right n =>
      have hand : (y / 2 ^ n &&& m) * 2 ^ n = y &&& m * 2 ^ n % 2 ^ w := by
        apply Nat.eq_of_testBit_eq
        intro i
        rw [Nat.testBit_mul_two_pow, Nat.testBit_and, Nat.testBit_and,
          Nat.testBit_div_two_pow, testBit_back_right]
        by_cases hi : n ≤ i
        · rw [Nat.sub_add_cancel hi]
          by_cases hw : i < w
          · simp [hi, hw]
          · simp [testBit_of_lt hy (Nat.not_lt.mp hw)]
        · simp [hi]
      exact hand.trans (Nat.mul_one _).symm

/-- One mask in front, and one shift. -/
theorem value_and {ss : List Step} {v : Nat} (h : Fits w ss v) (m : Nat) :
    (value ss v &&& m) * 2 ^ rights ss =
      (v &&& back w ss m) * 2 ^ lefts ss := by
  induction ss generalizing m with
  | nil => rfl
  | cons s ss ih =>
      have hstep := s.act_and h.2.lt m
      have hrest := ih h.2 (s.back w m)
      calc (s.act (value ss v) &&& m) * 2 ^ rights (s :: ss)
          = (s.act (value ss v) &&& m) * 2 ^ s.rights * 2 ^ rights ss := by
            rw [rights, List.map_cons, List.sum_cons, Nat.pow_add,
              ← Nat.mul_assoc]
            rfl
        _ = (value ss v &&& s.back w m) * 2 ^ rights ss * 2 ^ s.lefts := by
            rw [hstep, Nat.mul_right_comm]
        _ = (v &&& back w (s :: ss) m) * 2 ^ lefts (s :: ss) := by
            rw [hrest, lefts, lefts, List.map_cons, List.sum_cons,
              Nat.add_comm s.lefts, Nat.pow_add, ← Nat.mul_assoc]
            rfl

/-! ## Bits -/

/-- What is kept of a bit: it is moved and masks follow it, or it is lost and
no mask has it. -/
private def Moves (w : Nat) (rights lefts : Nat) (back : Nat → Nat)
    (j kept : Nat) : Prop :=
  (kept = 0 ∧ ∀ m < 2 ^ w, (back m).testBit j = false) ∨
    ∃ p < w, kept = 2 ^ p ∧ p + rights = j + lefts ∧
      ∀ m < 2 ^ w, (back m).testBit j = m.testBit p

private theorem Step.moves (s : Step) {j : Nat} (hj : j < w) :
    Moves w s.rights s.lefts (s.back w) j (s.act (2 ^ j) % 2 ^ w) := by
  have hlt : 2 ^ j < 2 ^ w := Nat.pow_lt_pow_right (by decide) hj
  cases s with
  | mask m' =>
      have hle := Nat.lt_of_le_of_lt (@Nat.and_le_left (2 ^ j) m') hlt
      rw [act, Nat.mod_eq_of_lt hle, Nat.two_pow_and]
      cases hbit : m'.testBit j with
      | true =>
          refine .inr ⟨j, hj, by simp, rfl, fun m _ => ?_⟩
          rw [back, Nat.testBit_and, hbit, Bool.and_true]
      | false =>
          refine .inl ⟨by simp, fun m _ => ?_⟩
          rw [back, Nat.testBit_and, hbit, Bool.and_false]
  | left n =>
      rw [act, ← Nat.pow_add]
      by_cases hn : j + n < w
      · refine .inr ⟨j + n, hn, Nat.mod_eq_of_lt
          (Nat.pow_lt_pow_right (by decide) hn), rfl, fun m _ => ?_⟩
        rw [back, Nat.testBit_div_two_pow]
      · refine .inl ⟨Nat.mod_eq_zero_of_dvd
          (Nat.pow_dvd_pow 2 (Nat.not_lt.mp hn)), fun m hm => ?_⟩
        rw [back, Nat.testBit_div_two_pow,
          testBit_of_lt hm (Nat.not_lt.mp hn)]
  | right n =>
      by_cases hn : n ≤ j
      · refine .inr ⟨j - n, by omega, ?_, Nat.sub_add_cancel hn,
          fun m _ => ?_⟩
        · rw [act, Nat.pow_div hn (by decide)]
          exact Nat.mod_eq_of_lt (Nat.pow_lt_pow_right (by decide) (by omega))
        · rw [back, testBit_back_right]
          simp [hj, hn]
      · refine .inl ⟨?_, fun m _ => ?_⟩
        · rw [act, Nat.div_eq_of_lt (Nat.pow_lt_pow_right (by decide)
            (Nat.not_le.mp hn)), Nat.zero_mod]
        · rw [back, testBit_back_right]
          simp [hn]

private theorem moves (ss : List Step) {j : Nat} (hj : j < w) :
    Moves w (rights ss) (lefts ss) (back w ss) j (kept w ss (2 ^ j)) := by
  induction ss with
  | nil => exact .inr ⟨j, hj, rfl, rfl, fun _ _ => rfl⟩
  | cons s ss ih =>
      have hkept : kept w (s :: ss) (2 ^ j) =
          s.act (kept w ss (2 ^ j)) % 2 ^ w := rfl
      have hback (m : Nat) :
          back w (s :: ss) m = back w ss (s.back w m) := rfl
      rw [hkept]
      obtain ⟨hzero, hlost⟩ | ⟨p, hp, hpow, hpos, hfollow⟩ := ih
      · refine .inl ⟨?_, fun m hm => ?_⟩
        · rw [hzero]
          cases s <;> simp [Step.act]
        · rw [hback, hlost _ (s.back_lt hm)]
      · rw [hpow]
        obtain ⟨hzero, hlost⟩ | ⟨q, hq, hmoved, hstep, hbit⟩ := s.moves hp
        · refine .inl ⟨hzero, fun m hm => ?_⟩
          rw [hback, hfollow _ (s.back_lt hm), hlost m hm]
        · refine .inr ⟨q, hq, hmoved, ?_, fun m hm => ?_⟩
          · simp only [rights, lefts, List.map_cons, List.sum_cons]
              at hpos ⊢
            omega
          · rw [hback, hfollow _ (s.back_lt hm), hbit m hm]

/-- The bits that show up in the value. -/
def shown (w : Nat) (ss : List Step) : Nat :=
  Nat.ofBits fun j : Fin w => decide (kept w ss (2 ^ j.val) ≠ 0)

theorem back_lt (ss : List Step) {m : Nat} (hm : m < 2 ^ w) :
    back w ss m < 2 ^ w := by
  induction ss generalizing m with
  | nil => exact hm
  | cons s ss ih => exact ih (s.back_lt hm)

theorem back_ones (ss : List Step) : back w ss (2 ^ w - 1) = shown w ss := by
  have hones : 2 ^ w - 1 < 2 ^ w := Nat.sub_one_lt (Nat.two_pow_pos w).ne'
  apply Nat.eq_of_testBit_eq
  intro j
  by_cases hj : j < w
  · rw [shown, Nat.testBit_ofBits_lt _ _ hj]
    obtain ⟨hzero, hlost⟩ | ⟨p, hp, hpow, -, hfollow⟩ := moves ss hj
    · simp [hzero, hlost _ hones]
    · rw [hfollow _ hones, Nat.testBit_two_pow_sub_one, hpow]
      simp [hp]
  · rw [shown, Nat.testBit_ofBits_ge _ _ (Nat.not_lt.mp hj),
      testBit_of_lt (back_lt ss hones) (Nat.not_lt.mp hj)]

/-- A bit that shows up stays within `w` bits. -/
theorem shown_stays {ss : List Step} {j : Nat}
    (h : (shown w ss).testBit j = true) :
    j < w ∧ rights ss ≤ j + lefts ss ∧ j + lefts ss < rights ss + w := by
  have hones : 2 ^ w - 1 < 2 ^ w := Nat.sub_one_lt (Nat.two_pow_pos w).ne'
  have hj : j < w := by
    by_contra hj
    rw [shown, Nat.testBit_ofBits_ge _ _ (Nat.not_lt.mp hj)] at h
    cases h
  rw [← back_ones] at h
  obtain ⟨-, hlost⟩ | ⟨p, hp, -, hpos, -⟩ := moves ss hj
  · rw [hlost _ hones] at h
    cases h
  · omega

/-- If anything shows up, it is not moved by `w` bits. -/
theorem shifts_lt {ss : List Step} (h : shown w ss ≠ 0) :
    rights ss < lefts ss + w ∧ lefts ss < rights ss + w := by
  obtain ⟨j, hbit⟩ := Nat.exists_testBit_of_ne_zero h
  obtain ⟨hj, hrights, hlefts⟩ := shown_stays hbit
  omega

/-- One mask and one shift. -/
theorem value_shown {ss : List Step} {v : Nat} (h : Fits w ss v) :
    value ss v * 2 ^ rights ss = (v &&& shown w ss) * 2 ^ lefts ss := by
  have hand := value_and h (2 ^ w - 1)
  rwa [Nat.and_two_pow_sub_one_of_lt_two_pow h.lt, back_ones] at hand

/-! ## Values of which some bits are lost -/

theorem kept_lt (ss : List Step) {v : Nat} (hv : v < 2 ^ w) :
    kept w ss v < 2 ^ w := by
  cases ss with
  | nil => exact hv
  | cons s ss => exact Nat.mod_lt _ (Nat.two_pow_pos w)

private theorem mod_and {m : Nat} (hm : m < 2 ^ w) (x : Nat) :
    x % 2 ^ w &&& m = x &&& m := by
  rw [← Nat.and_two_pow_sub_one_eq_mod, Nat.and_assoc,
    Nat.and_comm (2 ^ w - 1), Nat.and_two_pow_sub_one_of_lt_two_pow hm]

theorem kept_and (ss : List Step) {v m : Nat} (hv : v < 2 ^ w)
    (hm : m < 2 ^ w) :
    (kept w ss v &&& m) * 2 ^ rights ss =
      (v &&& back w ss m) * 2 ^ lefts ss := by
  induction ss generalizing m with
  | nil => rfl
  | cons s ss ih =>
      have hstep := s.act_and (kept_lt ss hv) m
      have hrest := ih (s.back_lt hm)
      calc (kept w (s :: ss) v &&& m) * 2 ^ rights (s :: ss)
          = (s.act (kept w ss v) &&& m) * 2 ^ s.rights * 2 ^ rights ss := by
            rw [rights, List.map_cons, List.sum_cons, Nat.pow_add,
              ← Nat.mul_assoc, ← mod_and hm (s.act _)]
            rfl
        _ = (kept w ss v &&& s.back w m) * 2 ^ rights ss * 2 ^ s.lefts := by
            rw [hstep, Nat.mul_right_comm]
        _ = (v &&& back w (s :: ss) m) * 2 ^ lefts (s :: ss) := by
            rw [hrest, lefts, lefts, List.map_cons, List.sum_cons,
              Nat.add_comm s.lefts, Nat.pow_add, ← Nat.mul_assoc]
            rfl

/-- One mask and one shift, whatever is lost. -/
theorem kept_shown (ss : List Step) {v : Nat} (hv : v < 2 ^ w) :
    kept w ss v * 2 ^ rights ss = (v &&& shown w ss) * 2 ^ lefts ss := by
  have hones : 2 ^ w - 1 < 2 ^ w := Nat.sub_one_lt (Nat.two_pow_pos w).ne'
  have hand := kept_and ss hv hones
  rwa [Nat.and_two_pow_sub_one_of_lt_two_pow (kept_lt ss hv), back_ones] at hand

end

end MaskShift
