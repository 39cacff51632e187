import Tcng.Lib.Ends

/-! Computations that take fuel, and end with the same result as soon as they
have enough of it. -/

variable {ε α β : Type}

/-- With enough fuel the result is `r`. -/
def Runs (x : Nat → Except ε α) (r : α) : Prop :=
  ∃ enough, ∀ fuel, enough ≤ fuel → x fuel = .ok r

namespace Runs

variable {x : Nat → Except ε α} {r : α}

theorem of_eq (h : ∀ fuel, x fuel = .ok r) : Runs x r :=
  ⟨0, fun fuel _ => h fuel⟩

theorem unique {r' : α} (h : Runs x r) (h' : Runs x r') : r = r' := by
  obtain ⟨n, hn⟩ := h
  obtain ⟨n', hn'⟩ := h'
  have heq := (hn (max n n') (Nat.le_max_left ..)).symm.trans
    (hn' (max n n') (Nat.le_max_right ..))
  exact Except.ok.inj heq

theorem bind {f : Nat → α → Except ε β} {s : β} (h : Runs x r)
    (hf : Runs (fun fuel => f fuel r) s) :
    Runs (fun fuel => x fuel >>= f fuel) s := by
  obtain ⟨n, hn⟩ := h
  obtain ⟨m, hm⟩ := hf
  refine ⟨max n m, fun fuel hfuel => ?_⟩
  show (x fuel >>= f fuel) = .ok s
  rw [hn fuel (Nat.le_trans (Nat.le_max_left ..) hfuel)]
  exact hm fuel (Nat.le_trans (Nat.le_max_right ..) hfuel)

/-- A function that uses up one unit of fuel. -/
theorem step {y : Nat → Except ε α} (h : Runs y r)
    (hstep : ∀ fuel, x (fuel + 1) = y fuel) : Runs x r := by
  obtain ⟨n, hn⟩ := h
  refine ⟨n + 1, fun fuel hfuel => ?_⟩
  cases fuel with
  | zero => omega
  | succ fuel =>
      rw [hstep]
      exact hn fuel (by omega)

/-- A function that uses the result of another one, and one unit of fuel. -/
theorem continue_with {y : Nat → Except ε β} {s : β} (h : Runs y s)
    (hx : ∀ fuel, y fuel = .ok s → x (fuel + 1) = .ok r) : Runs x r := by
  obtain ⟨n, hn⟩ := h
  refine ⟨n + 1, fun fuel hfuel => ?_⟩
  cases fuel with
  | zero => cases hfuel
  | succ fuel => exact hx fuel (hn fuel (Nat.le_of_succ_le_succ hfuel))

theorem and {y : Nat → Except ε β} {s : β} (hx : Runs x r) (hy : Runs y s) :
    ∃ enough, ∀ fuel, enough ≤ fuel → x fuel = .ok r ∧ y fuel = .ok s := by
  obtain ⟨n, hn⟩ := hx
  obtain ⟨m, hm⟩ := hy
  exact ⟨max n m, fun fuel hfuel =>
    ⟨hn fuel (Nat.le_trans (Nat.le_max_left ..) hfuel),
      hm fuel (Nat.le_trans (Nat.le_max_right ..) hfuel)⟩⟩

/-- One unit of fuel is enough. -/
theorem of_succ (h : ∀ fuel, x (fuel + 1) = .ok r) : Runs x r :=
  (of_eq fun _ => rfl).step h

end Runs
