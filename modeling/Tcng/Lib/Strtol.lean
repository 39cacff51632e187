import Mathlib.Algebra.Ring.Nat
import Tcng.Lib.Scan

/-! `strtoul` and `strtol` with base 10, where a `long` has `w` bits: the
number, and what follows it. -/

namespace Tcng.Scan

def startsWithDigit (text : List Char) : Bool := text.head?.any Char.isDigit

def isMinus (text : List Char) : Bool := text.head? == some '-'

/-- A number with its sign. -/
def scanSigned (text : List Char) : Option (Bool × Nat × List Char) :=
  let rest := text.dropWhile isSpace
  let digits := if isMinus rest || rest.head? == some '+' then rest.tail else rest
  if startsWithDigit digits then
    some (isMinus rest, scanDigits 10 Char.isDigit digits)
  else none

/-- The value that `strtoul` returns: numbers too large become `ULONG_MAX`. -/
def toUlong (w : Nat) (minus : Bool) (n : Nat) : Nat :=
  if 2 ^ w ≤ n then 2 ^ w - 1
  else if minus then (2 ^ w - n) % 2 ^ w else n

/-- The value that `strtol` returns: numbers too large become `LONG_MAX` or
`LONG_MIN`. -/
def toLong (w : Nat) (minus : Bool) (n : Nat) : Int :=
  if minus then
    if n ≤ 2 ^ (w - 1) then -(n : Int) else -((2 ^ (w - 1) : Nat) : Int)
  else
    if n < 2 ^ (w - 1) then n else ((2 ^ (w - 1) : Nat) : Int) - 1

def strtoul (w : Nat) (text : List Char) : Nat × List Char :=
  match scanSigned text with
  | some (minus, n, rest) => (toUlong w minus n, rest)
  | none => (0, text)

def strtol (w : Nat) (text : List Char) : Int × List Char :=
  match scanSigned text with
  | some (minus, n, rest) => (toLong w minus n, rest)
  | none => (0, text)

variable {text : List Char}

theorem startsWithDigit_iff :
    startsWithDigit text = true ↔
      ∃ c rest, text = c :: rest ∧ c.isDigit = true := by
  cases text <;> simp [startsWithDigit]

theorem isMinus_iff : isMinus text = true ↔ ∃ rest, text = '-' :: rest := by
  cases text <;> simp [isMinus]

theorem scanSigned_digit (h : startsWithDigit text = true) :
    scanSigned text = some (false, scanDigits 10 Char.isDigit text) := by
  obtain ⟨c, rest, rfl, hc⟩ := startsWithDigit_iff.mp h
  have hspace : (c :: rest).dropWhile isSpace = c :: rest :=
    List.dropWhile_cons_of_neg (by simp [isSpace_of_isDigit hc])
  have hminus : c ≠ '-' := by
    intro heq
    rw [heq] at hc
    exact absurd hc (by decide)
  have hplus : c ≠ '+' := by
    intro heq
    rw [heq] at hc
    exact absurd hc (by decide)
  simp only [scanSigned, hspace]
  simp [isMinus, hminus, hplus, startsWithDigit, hc]

theorem scanSigned_minus {rest : List Char} :
    scanSigned ('-' :: rest) =
      if startsWithDigit rest then
        some (true, scanDigits 10 Char.isDigit rest)
      else none := by
  have hspace : ('-' :: rest).dropWhile isSpace = '-' :: rest :=
    List.dropWhile_cons_of_neg (by decide)
  simp only [scanSigned, hspace]
  simp [isMinus]

theorem scanDigits_suffix (base : Nat) (isDigit : Char → Bool)
    (text : List Char) : (scanDigits base isDigit text).2 <:+ text :=
  List.dropWhile_suffix isDigit

theorem scanSigned_suffix {minus : Bool} {n : Nat} {rest : List Char}
    (h : scanSigned text = some (minus, n, rest)) : rest <:+ text := by
  simp only [scanSigned, Option.ite_none_right_eq_some, Option.some.injEq,
    Prod.mk.injEq] at h
  obtain ⟨-, -, hscan⟩ := h
  rw [← show _ = rest from congrArg Prod.snd hscan]
  have hspace := List.dropWhile_suffix (l := text) isSpace
  refine (scanDigits_suffix 10 Char.isDigit _).trans ?_
  split
  · exact (List.tail_suffix _).trans hspace
  · exact hspace

theorem strtoul_suffix (w : Nat) (text : List Char) :
    (strtoul w text).2 <:+ text := by
  rw [strtoul]
  split
  · next h => exact scanSigned_suffix h
  · exact List.suffix_refl text

end Tcng.Scan
