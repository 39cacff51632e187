import Mathlib.Data.Nat.Notation
import Mathlib.Data.List.TakeWhile

/-! Numbers in a text: what `printf` writes with `%d`, and what `scanf` reads
with `%i`, where no number has a sign. -/

namespace Tcng.Scan

def isSpace (c : Char) : Bool := c = ' ' || ('\t' ≤ c && c ≤ '\r')

/-- The digits that `isxdigit` knows. -/
def isXdigit (c : Char) : Bool :=
  c.isDigit || ('a' ≤ c && c ≤ 'f') || ('A' ≤ c && c ≤ 'F')

def hexValue (c : Char) : Nat :=
  if 'a' ≤ c then c.toNat - 'a'.toNat + 10
  else if 'A' ≤ c then c.toNat - 'A'.toNat + 10
  else c.toNat - '0'.toNat

/-- The number that the first digits stand for, and what follows them. -/
def scanDigits (base : Nat) (isDigit : Char → Bool) (text : List Char) :
    Nat × List Char :=
  ((text.takeWhile isDigit).foldl (fun n c => base * n + hexValue c) 0,
    text.dropWhile isDigit)

/-- `%i`: the base is recognized by the first characters. -/
def scanInt (text : List Char) : Option (Nat × List Char) :=
  match text.dropWhile isSpace with
  | '0' :: c :: rest =>
      if c = 'x' ∨ c = 'X' then
        if rest.head?.any isXdigit then some (scanDigits 16 isXdigit rest)
        else none
      else
        some (scanDigits 8 (fun c => c.isDigit && decide (c < '8'))
          ('0' :: c :: rest))
  | c :: rest =>
      if c.isDigit then some (scanDigits 10 Char.isDigit (c :: rest)) else none
  | [] => none

/-- A character that stands for itself. -/
def scanChar (c : Char) : List Char → Option (List Char)
  | [] => none
  | first :: rest => if first = c then some rest else none

/-- `%d` -/
def printNat (n : Nat) : List Char := Nat.toDigits 10 n

/-! ## Printed numbers are read back -/

theorem isDigit_of_mem_printNat {n : Nat} {c : Char} (h : c ∈ printNat n) :
    c.isDigit = true :=
  Nat.isDigit_of_mem_toDigits (by decide) (by decide) h

theorem hexValue_of_isDigit {c : Char} (h : c.isDigit = true) :
    hexValue c = c.toNat - '0'.toNat := by
  simp only [Char.isDigit, Bool.and_eq_true, decide_eq_true_eq] at h
  have ha : ¬ 'a' ≤ c := fun hle => absurd (UInt32.le_trans hle h.2) (by decide)
  have hA : ¬ 'A' ≤ c := fun hle => absurd (UInt32.le_trans hle h.2) (by decide)
  rw [hexValue, if_neg ha, if_neg hA]

theorem printNat_eq_cons (n : Nat) :
    ∃ c digits, printNat n = c :: digits ∧ c.isDigit = true := by
  cases hd : printNat n with
  | nil => exact absurd hd Nat.toDigits_ne_nil
  | cons c digits =>
      exact ⟨c, digits, rfl, isDigit_of_mem_printNat (hd ▸ List.mem_cons_self)⟩

/-- Only zero starts with a zero. -/
theorem printNat_head_ne {n : Nat} (h : 0 < n) :
    (printNat n).head? ≠ some '0' := by
  induction n using Nat.strongRecOn with
  | ind n ih =>
      rw [printNat]
      rcases Nat.lt_or_ge n 10 with hlt | hge
      · have hdigit : ∀ n < 10, 0 < n → n.digitChar ≠ '0' := by decide
        rw [Nat.toDigits_of_lt_base hlt]
        exact fun heq => hdigit n hlt h (Option.some.inj heq)
      · have hlow := ih (n / 10) (by omega) (by omega)
        rw [Nat.toDigits_of_base_le (by decide) hge, List.head?_append]
        cases hhead : (Nat.toDigits 10 (n / 10)).head? with
        | none =>
            exact absurd (List.head?_eq_none_iff.mp hhead) Nat.toDigits_ne_nil
        | some c =>
            rw [printNat, hhead] at hlow
            exact hlow

theorem foldl_printNat (n : Nat) :
    (printNat n).foldl (fun n c => 10 * n + hexValue c) 0 = n := by
  have hfold : ∀ (digits : List Char) (start : Nat),
      (∀ c ∈ digits, c.isDigit = true) →
      digits.foldl (fun n c => 10 * n + hexValue c) start =
        Nat.ofDigitChars 10 digits start := by
    intro digits
    induction digits with
    | nil => simp
    | cons c digits ih =>
        intro start hall
        rw [List.foldl_cons, hexValue_of_isDigit (hall c List.mem_cons_self),
          Nat.ofDigitChars_cons]
        exact ih _ fun c hc => hall c (List.mem_cons_of_mem _ hc)
  rw [hfold _ _ fun c hc => isDigit_of_mem_printNat hc, printNat,
    Nat.ofDigitChars_ten_toDigits]

/-- What comes next is no digit. -/
def Ends (rest : List Char) : Prop :=
  ∀ c ∈ rest.head?, c.isDigit = false

theorem takeWhile_append_of_ends {isDigit : Char → Bool}
    {digits rest : List Char} (hdigits : ∀ c ∈ digits, isDigit c = true)
    (hrest : ∀ c ∈ rest.head?, isDigit c = false) :
    (digits ++ rest).takeWhile isDigit = digits ∧
      (digits ++ rest).dropWhile isDigit = rest := by
  induction digits with
  | nil =>
      cases rest with
      | nil => exact ⟨rfl, rfl⟩
      | cons c rest =>
          have hc := hrest c rfl
          rw [List.nil_append, List.takeWhile_cons_of_neg (by simp [hc]),
            List.dropWhile_cons_of_neg (by simp [hc])]
          exact ⟨rfl, rfl⟩
  | cons c digits ih =>
      have hc := hdigits c List.mem_cons_self
      obtain ⟨htake, hdrop⟩ := ih fun c hc =>
        hdigits c (List.mem_cons_of_mem _ hc)
      rw [List.cons_append, List.takeWhile_cons_of_pos hc,
        List.dropWhile_cons_of_pos hc, htake, hdrop]
      exact ⟨rfl, rfl⟩

theorem scanDigits_printNat {rest : List Char} (hrest : Ends rest) (n : Nat) :
    scanDigits 10 Char.isDigit (printNat n ++ rest) = (n, rest) := by
  obtain ⟨htake, hdrop⟩ := takeWhile_append_of_ends
    (fun c hc => isDigit_of_mem_printNat hc) hrest
  rw [scanDigits, htake, hdrop, foldl_printNat]

theorem isSpace_of_isDigit {c : Char} (h : c.isDigit = true) :
    isSpace c = false := by
  simp only [Char.isDigit, Bool.and_eq_true, decide_eq_true_eq] at h
  have hblank : c ≠ ' ' := by
    rintro rfl
    exact absurd h.1 (by decide)
  have hcontrol : ¬c ≤ '\r' := fun hle =>
    absurd (UInt32.le_trans h.1 hle) (by decide)
  simp [isSpace, hblank, hcontrol]

/-- A number is read up to what cannot belong to it. -/
theorem scanInt_printNat {rest : List Char} (hrest : Ends rest)
    (hx : ∀ c ∈ rest.head?, ¬(c = 'x' ∨ c = 'X')) (n : Nat) :
    scanInt (printNat n ++ rest) = some (n, rest) := by
  obtain ⟨c, digits, hcons, hc⟩ := printNat_eq_cons n
  have hspace : (printNat n ++ rest).dropWhile isSpace =
      printNat n ++ rest := by
    rw [hcons, List.cons_append, List.dropWhile_cons_of_neg]
    simp [isSpace_of_isDigit hc]
  rw [scanInt, hspace]
  rcases Nat.eq_zero_or_pos n with rfl | hpos
  · cases rest with
    | nil => rfl
    | cons next rest =>
        have hnext : next.isDigit = false := hrest next rfl
        have hletter := hx next rfl
        show (if _ then _ else _) = _
        rw [if_neg hletter]
        simp [scanDigits, hnext, hexValue]
  · have hzero : c ≠ '0' := by
      rintro rfl
      exact printNat_head_ne hpos (by rw [hcons]; rfl)
    have hscan := scanDigits_printNat hrest n
    rw [hcons, List.cons_append] at hscan ⊢
    split
    · next heq => exact absurd (List.cons.inj heq).1 hzero
    · next heq =>
        obtain ⟨rfl, rfl⟩ := List.cons.inj heq
        rw [if_pos hc, hscan]
    · next heq => cases heq

end Tcng.Scan
