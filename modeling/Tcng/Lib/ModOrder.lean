import Mathlib.Order.Compare

/-! Comparison of numbers modulo `m` after a constant has been moved from one
side to the other: equality is kept, order only where both sides wrap or
neither does. -/

namespace ModOrder

theorem compare_eq_ite (a b : Nat) :
    compare a b = if a < b then .lt else if b < a then .gt else .eq := by
  rcases Nat.lt_trichotomy a b with h | h | h
  · rw [if_pos h, Nat.compare_eq_lt.mpr h]
  · rw [if_neg (by omega), if_neg (by omega), Nat.compare_eq_eq.mpr h]
  · rw [if_neg (by omega), if_pos h, Nat.compare_eq_gt.mpr h]

theorem compare_congr_iff {a b c d : Nat} :
    compare a b = compare c d ↔ (a < b ↔ c < d) ∧ (b < a ↔ d < c) := by
  rw [compare_eq_ite, compare_eq_ite]
  grind

variable {m x c d : Nat}

theorem add_mod_of_lt (hx : x < m) (hc : c < m) :
    (x + c) % m = if m ≤ x + c then x + c - m else x + c := by
  split
  · rw [Nat.mod_eq_sub_mod ‹_›, Nat.mod_eq_of_lt (by omega)]
  · exact Nat.mod_eq_of_lt (by omega)

theorem sub_mod_of_lt (hx : x < m) (hc : c < m) :
    (m - c + x) % m = if x < c then m - c + x else x - c := by
  split
  · exact Nat.mod_eq_of_lt (by omega)
  · rw [Nat.mod_eq_sub_mod (by omega), Nat.mod_eq_of_lt (by omega)]
    omega

variable (hx : x < m) (hc : c < m) (hd : d < m)
include hx hc hd

/-! `x + c` against `d`, and `x` against `d - c`. -/

theorem add_mod_eq_iff : (x + c) % m = d ↔ x = (m - c + d) % m := by
  rw [add_mod_of_lt hx hc, sub_mod_of_lt hd hc]
  split <;> split <;> omega

theorem compare_add_mod_iff :
    compare ((x + c) % m) d = compare x ((m - c + d) % m) ↔
      (m ≤ x + c ↔ d < c) := by
  rw [add_mod_of_lt hx hc, sub_mod_of_lt hd hc, compare_congr_iff]
  split <;> split <;> omega

/-! `x - c` against `d`, and `x` against `d + c`. -/

theorem sub_mod_eq_iff : (m - c + x) % m = d ↔ x = (d + c) % m := by
  rw [add_mod_of_lt hd hc, sub_mod_of_lt hx hc]
  split <;> split <;> omega

theorem compare_sub_mod_iff :
    compare ((m - c + x) % m) d = compare x ((d + c) % m) ↔
      (x < c ↔ m ≤ d + c) := by
  rw [add_mod_of_lt hd hc, sub_mod_of_lt hx hc, compare_congr_iff]
  split <;> split <;> omega

/-! `c - x` against `d`, and `x` against `c - d`: what is smaller on one side
is greater on the other one. -/

theorem rsub_mod_eq_iff : (m - x + c) % m = d ↔ x = (m - d + c) % m := by
  rw [sub_mod_of_lt hc hx, sub_mod_of_lt hc hd]
  split <;> split <;> omega

theorem compare_rsub_mod_iff :
    compare ((m - x + c) % m) d = compare x ((m - d + c) % m) ↔
      x = (m - d + c) % m ∨ (c < x ↔ d ≤ c) := by
  rw [sub_mod_of_lt hc hx, sub_mod_of_lt hc hd, compare_congr_iff]
  split <;> split <;> omega

end ModOrder
